import SchedOS.Kernel.Table

set_option autoImplicit false

namespace SchedOS

namespace App

structure Build where
  syncMethod : Nat
  runcount : Nat

structure Macros where
  printchar : BitVec 32
  priority : BitVec 32
  share : BitVec 32

def schedos1 : Macros := { printchar := 0x31 ||| 0x0C00, priority := 5, share := 1 }
def schedos2 : Macros := { printchar := 0x32 ||| 0x0A00, priority := 1, share := 2 }
def schedos3 : Macros := { printchar := 0x33 ||| 0x0900, priority := 6, share := 3 }
def schedos4 : Macros := { printchar := 0x34 ||| 0x0E00, priority := 1, share := 4 }

def macros : Nat → Macros
  | 1 => schedos1
  | 2 => schedos2
  | 3 => schedos3
  | _ => schedos4

def char (pid : Nat) : BitVec 16 := (macros pid).printchar.setWidth 16

/-- The next step of a thread. Of the two stores of `*cursorpos++ = PRINTCHAR` the first is done
at `store`, in either order, and the other at `storeCursor` or `storeChar`. -/
inductive Pc where
  | setPriority
  | setShare
  | getTicket
  | acquire
  | load
  | store
  | storeCursor
  | storeChar
  | release
  | yield
  | print
  | exit
  | stop
  deriving DecidableEq

structure Thread where
  pc : Pc
  i : Nat
  cursor : BitVec 32

def Thread.initial : Thread := { pc := .setPriority, i := 0, cursor := 0 }

def Pc.Critical (pc : Pc) : Prop := pc ∈ [Pc.load, .store, .storeCursor, .storeChar, .release]

instance : DecidablePred Pc.Critical := fun _ => inferInstanceAs (Decidable (_ ∈ _))

-- The head of the `for` loop, where the empty body of any other `SYNC_METHOD` is passed over.
def Build.head (build : Build) (i : Nat) : Pc :=
  if i < build.runcount then
    if build.syncMethod = 1 then .acquire
    else if build.syncMethod = 2 then .print
    else .exit
  else .exit

def Thread.enter (build : Build) (t : Thread) (i : Nat) : Thread :=
  { t with i := i, pc := build.head i }

def Thread.resume (build : Build) (t : Thread) : Thread :=
  match t.pc with
  | .setPriority => { t with pc := .setShare }
  | .setShare => { t with pc := .getTicket }
  | .getTicket => t.enter build 0
  | .yield => t.enter build (t.i + 1)
  | .print => t.enter build (t.i + 1)
  | .exit => { t with pc := .stop }
  | _ => t

-- The interrupt number of a system call, and what it loads into `%eax`, if anything.
def Pc.call (app : Macros) : Pc → Option (BitVec 32 × Option (BitVec 32))
  | .setPriority => some (50, some app.priority)
  | .setShare => some (51, some app.share)
  | .getTicket => some (53, none)
  | .yield => some (48, none)
  | .print => some (52, some app.printchar)
  | .exit => some (49, some 0)
  | _ => none

structure Requests (app : Macros) (pc : Pc) (reg : Registers) : Prop where
  number : (pc.call app).map Prod.fst = some reg.regIntno
  argument : ∀ eax, (pc.call app).bind Prod.snd = some eax → reg.regEax = eax

theorem requests_trap {app : Macros} {pc : Pc} {intno : BitVec 32} {eax : Option (BitVec 32)}
    (calls : pc.call app = some (intno, eax)) : Requests app pc (trap intno (eax.getD 0)) := by
  refine ⟨by rw [calls]; rfl, fun value loaded => ?_⟩
  rw [calls] at loaded
  cases loaded
  rfl

theorem Requests.cases {app : Macros} {pc : Pc} {reg : Registers}
    (requests : Requests app pc reg) :
    (pc = .setPriority ∧ reg.service = .user1) ∨ (pc = .setShare ∧ reg.service = .user2) ∨
    (pc = .getTicket ∧ reg.service = .user4) ∨ (pc = .yield ∧ reg.service = .yield) ∨
    (pc = .print ∧ reg.service = .user3) ∨ (pc = .exit ∧ reg.service = .exit) := by
  have number := requests.number
  cases pc <;> simp only [Pc.call, Option.map_some, Option.map_none, Option.some.injEq,
    reduceCtorEq] at number <;> simp [Registers.service, ← number, service]

theorem tick_service {reg : Registers} (tick : reg.regIntno = 32) : reg.service = .clock := by
  simp [Registers.service, tick, service]

-- One access of a thread to the variables that the applications share.
inductive Access (app : Macros) (k : Kernel) (t : Thread) : Kernel → Thread → Prop where
  -- `atomic_swap` stores 1 whatever it finds.
  | acquire (here : t.pc = .acquire) : Access app k t { k with lock := 1 }
      { t with pc := if k.lock ≠ 0 then .acquire else .load }
  | load (here : t.pc = .load) : Access app k t k { t with cursor := k.cursorpos, pc := .store }
  | charFirst (here : t.pc = .store) : Access app k t
      { k with cells := Function.update k.cells t.cursor (app.printchar.setWidth 16) }
      { t with pc := .storeCursor }
  | cursorLast (here : t.pc = .storeCursor) : Access app k t
      { k with cursorpos := t.cursor + 2 } { t with pc := .release }
  | cursorFirst (here : t.pc = .store) : Access app k t
      { k with cursorpos := t.cursor + 2 } { t with pc := .storeChar }
  | charLast (here : t.pc = .storeChar) : Access app k t
      { k with cells := Function.update k.cells t.cursor (app.printchar.setWidth 16) }
      { t with pc := .release }
  | release (here : t.pc = .release) : Access app k t { k with lock := 0 } { t with pc := .yield }

structure System where
  machine : Machine
  thread : Nat → Thread

def init (boot : Boot) : System := { machine := start boot, thread := fun _ => .initial }

inductive Kind where
  | access
  | call
  | clock
  | dispatch
  deriving DecidableEq

/-- The transitions: the current thread accesses a shared variable, it does a system call, the
clock interrupts it, or the scheduler gives the processor away. -/
inductive Move (build : Build) (sched : Kernel → Kernel → Prop) :
    Kind → System → System → Prop where
  | access {k k' : Kernel} {thread : Nat → Thread} {t : Thread}
      (acts : Access (macros k.current) k (thread k.current) k' t) :
      Move build sched .access ⟨.user k, thread⟩ ⟨.user k', Function.update thread k.current t⟩
  | call {k : Kernel} {thread : Nat → Thread} {reg : Registers}
      (requests : Requests (macros k.current) (thread k.current).pc reg) :
      Move build sched .call ⟨.user k, thread⟩
        ⟨interrupt reg k,
          Function.update thread k.current ((thread k.current).resume build)⟩
  | clock {k : Kernel} {thread : Nat → Thread} {reg : Registers} (tick : reg.regIntno = 32) :
      Move build sched .clock ⟨.user k, thread⟩ ⟨interrupt reg k, thread⟩
  | dispatch {k k' : Kernel} {thread : Nat → Thread} (picked : sched k k') :
      Move build sched .dispatch ⟨.scheduling k, thread⟩ ⟨.user k', thread⟩

def Step (build : Build) (sched : Kernel → Kernel → Prop) (s s' : System) : Prop :=
  ∃ kind, Move build sched kind s s'

section Step

variable {build : Build} {sched : Kernel → Kernel → Prop} {k k' : Kernel} {thread : Nat → Thread}

theorem Step.access {t : Thread} (acts : Access (macros k.current) k (thread k.current) k' t) :
    Step build sched ⟨.user k, thread⟩ ⟨.user k', Function.update thread k.current t⟩ :=
  ⟨_, .access acts⟩

theorem Step.call {reg : Registers}
    (requests : Requests (macros k.current) (thread k.current).pc reg) :
    Step build sched ⟨.user k, thread⟩
      ⟨interrupt reg k, Function.update thread k.current ((thread k.current).resume build)⟩ :=
  ⟨_, .call requests⟩

theorem Step.clock {reg : Registers} (tick : reg.regIntno = 32) :
    Step build sched ⟨.user k, thread⟩ ⟨interrupt reg k, thread⟩ :=
  ⟨_, .clock tick⟩

theorem Step.dispatch (picked : sched k k') :
    Step build sched ⟨.scheduling k, thread⟩ ⟨.user k', thread⟩ :=
  ⟨_, .dispatch picked⟩

end Step

abbrev Reaches (build : Build) (sched : Kernel → Kernel → Prop) : System → System → Prop :=
  Relation.ReflTransGen (Step build sched)

theorem access_store {app : Macros} {k k' : Kernel} {t t' : Thread} (acts : Access app k t k' t') :
    k' = { k with cursorpos := k'.cursorpos, lock := k'.lock, cells := k'.cells } := by
  cases acts <;> rfl

theorem step_machine {build : Build} {sched : Kernel → Kernel → Prop} {s s' : System}
    (step : Step build sched s s') : ∃ label, SchedOS.Step sched s.machine label s'.machine := by
  obtain ⟨_, step⟩ := step
  cases step with
  | access acts => exact ⟨.store, access_store acts ▸ .store _ _ _ _⟩
  | call requests => exact ⟨_, .interrupt _ _⟩
  | clock tick => exact ⟨_, .interrupt _ _⟩
  | dispatch picked => exact ⟨_, .dispatch picked⟩

end App

end SchedOS
