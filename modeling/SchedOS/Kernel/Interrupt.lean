import SchedOS.Kernel.Schedule
import SchedOS.Shared.Trace

set_option autoImplicit false

namespace SchedOS

inductive Service where
  | yield
  | exit
  | user1
  | user2
  | user3
  | user4
  | clock
  | unknown
  deriving DecidableEq

-- The interrupt numbers of `schedos.h` and `schedos-kern.h`.
def service (intno : BitVec 32) : Service :=
  match intno.toNat with
  | 48 => .yield
  | 49 => .exit
  | 50 => .user1
  | 51 => .user2
  | 52 => .user3
  | 53 => .user4
  | 32 => .clock
  | _ => .unknown

def trap (intno eax : BitVec 32) : Registers :=
  { Registers.zero with regIntno := intno, regEax := eax }

def Registers.service (reg : Registers) : Service := SchedOS.service reg.regIntno

namespace Kernel

def setCurrent (k : Kernel) (f : Process → Process) : Kernel :=
  k.setProc k.current (f (k.procArray k.current))

-- `*cursorpos++ = value`. A store behind the screen is taken to hit no variable of the kernel.
def print (k : Kernel) (value : BitVec 32) : Kernel :=
  { k with
    cells := Function.update k.cells k.cursorpos (value.setWidth 16)
    cursorpos := k.cursorpos + 2 }

def sellTicket (k : Kernel) : Kernel :=
  if k.numTickets < maxTickets then
    { k with
      tickets := Function.update k.tickets k.numTickets (k.procArray k.current).pPid
      numTickets := k.numTickets + 1 }
  else k

end Kernel

def interrupt (reg : Registers) (k : Kernel) : Machine :=
  let k := k.setCurrent fun proc => { proc with pRegisters := reg }
  -- Neither `schedule` nor `run` returns, so no case falls through to the next.
  match reg.service with
  | .yield => .scheduling k
  | .exit => .scheduling (k.setCurrent fun proc =>
      { proc with pState := .zombie, pExitStatus := reg.regEax.toInt })
  | .user1 => .user ((k.setCurrent fun proc => { proc with pPriority := reg.regEax.toInt }).run
      k.current)
  | .user2 => .user ((k.setCurrent fun proc => { proc with pShare := reg.regEax.toInt }).run
      k.current)
  | .user3 => .user ((k.print reg.regEax).run k.current)
  | .user4 => .user (k.sellTicket.run k.current)
  | .clock => .scheduling k
  | .unknown => .halted k

def Process.served (reg : Registers) (proc : Process) : Process :=
  match reg.service with
  | .exit => { proc with pRegisters := reg, pState := .zombie, pExitStatus := reg.regEax.toInt }
  | .user1 => { proc with pRegisters := reg, pPriority := reg.regEax.toInt }
  | .user2 => { proc with pRegisters := reg, pShare := reg.regEax.toInt }
  | _ => { proc with pRegisters := reg }

section Interrupt

variable (reg : Registers) (k : Kernel)

theorem sellTicket_keeps : k.sellTicket.procArray = k.procArray ∧
    k.sellTicket.schedulingAlgorithm = k.schedulingAlgorithm ∧ k.sellTicket.rngs = k.rngs ∧
    k.sellTicket.cursorpos = k.cursorpos ∧ k.sellTicket.lock = k.lock ∧
    k.sellTicket.cells = k.cells := by
  unfold Kernel.sellTicket
  split <;> exact ⟨rfl, rfl, rfl, rfl, rfl, rfl⟩

theorem interrupt_procArray : (interrupt reg k).kernel.procArray =
    Function.update k.procArray k.current ((k.procArray k.current).served reg) := by
  cases kind : reg.service <;>
    simp [interrupt, kind, Machine.kernel, Kernel.setCurrent, Kernel.setProc, Kernel.run,
      Kernel.print, sellTicket_keeps, Process.served]

theorem interrupt_proc_other {pid : Nat} (other : pid ≠ k.current) :
    (interrupt reg k).kernel.procArray pid = k.procArray pid := by
  rw [interrupt_procArray, Function.update_of_ne other]

theorem interrupt_proc_current : (interrupt reg k).kernel.procArray k.current =
    (k.procArray k.current).served reg := by
  rw [interrupt_procArray, Function.update_self]

@[simp] theorem interrupt_current : (interrupt reg k).kernel.current = k.current := by
  cases kind : reg.service <;>
    simp [interrupt, kind, Machine.kernel, Kernel.setCurrent, Kernel.run, Kernel.print]

@[simp] theorem interrupt_algorithm :
    (interrupt reg k).kernel.schedulingAlgorithm = k.schedulingAlgorithm := by
  cases kind : reg.service <;>
    simp [interrupt, kind, Machine.kernel, Kernel.setCurrent, Kernel.run, Kernel.print,
      sellTicket_keeps]

@[simp] theorem interrupt_rngs : (interrupt reg k).kernel.rngs = k.rngs := by
  cases kind : reg.service <;>
    simp [interrupt, kind, Machine.kernel, Kernel.setCurrent, Kernel.run, Kernel.print,
      sellTicket_keeps]

theorem interrupt_tickets :
    (interrupt reg k).kernel.numTickets =
      (if reg.service = .user4 ∧ k.numTickets < maxTickets then k.numTickets + 1
        else k.numTickets) ∧
    (interrupt reg k).kernel.tickets =
      (if reg.service = .user4 ∧ k.numTickets < maxTickets then
        Function.update k.tickets k.numTickets (k.procArray k.current).pPid else k.tickets) := by
  cases kind : reg.service <;>
    simp only [interrupt, kind, Machine.kernel, Kernel.setCurrent, Kernel.run, Kernel.print,
      Kernel.sellTicket, Kernel.setProc, reduceCtorEq, false_and, if_false, and_self, true_and,
      Function.update_self]
  split <;> simp

@[simp] theorem interrupt_lock : (interrupt reg k).kernel.lock = k.lock := by
  cases kind : reg.service <;>
    simp [interrupt, kind, Machine.kernel, Kernel.setCurrent, Kernel.run, Kernel.print,
      sellTicket_keeps]

theorem interrupt_screen :
    (interrupt reg k).kernel.cursorpos =
      (if reg.service = .user3 then k.cursorpos + 2 else k.cursorpos) ∧
    (interrupt reg k).kernel.cells =
      (if reg.service = .user3 then
        Function.update k.cells k.cursorpos (reg.regEax.setWidth 16) else k.cells) := by
  cases kind : reg.service <;>
    simp [interrupt, kind, Machine.kernel, Kernel.setCurrent, Kernel.run, Kernel.print,
      sellTicket_keeps]

@[simp] theorem served_pid (proc : Process) : (proc.served reg).pPid = proc.pPid := by
  cases kind : reg.service <;> simp [Process.served, kind]

@[simp] theorem served_time (proc : Process) :
    (proc.served reg).pTimePassed = proc.pTimePassed := by
  cases kind : reg.service <;> simp [Process.served, kind]

theorem served_state (proc : Process) : (proc.served reg).pState =
    if reg.service = .exit then .zombie else proc.pState := by
  cases kind : reg.service <;> simp [Process.served, kind]

theorem served_priority (proc : Process) : (proc.served reg).pPriority =
    if reg.service = .user1 then reg.regEax.toInt else proc.pPriority := by
  cases kind : reg.service <;> simp [Process.served, kind]

theorem served_share (proc : Process) : (proc.served reg).pShare =
    if reg.service = .user2 then reg.regEax.toInt else proc.pShare := by
  cases kind : reg.service <;> simp [Process.served, kind]

theorem interrupt_state (pid : Nat) : ((interrupt reg k).kernel.procArray pid).pState =
    if pid = k.current ∧ reg.service = .exit then .zombie else (k.procArray pid).pState := by
  by_cases same : pid = k.current
  · subst same
    rw [interrupt_proc_current, served_state]
    simp
  · rw [interrupt_proc_other _ _ same]
    simp [same]

theorem interrupt_priority (pid : Nat) : ((interrupt reg k).kernel.procArray pid).pPriority =
    if pid = k.current ∧ reg.service = .user1 then reg.regEax.toInt
    else (k.procArray pid).pPriority := by
  by_cases same : pid = k.current
  · subst same
    rw [interrupt_proc_current, served_priority]
    simp
  · rw [interrupt_proc_other _ _ same]
    simp [same]

theorem interrupt_share (pid : Nat) : ((interrupt reg k).kernel.procArray pid).pShare =
    if pid = k.current ∧ reg.service = .user2 then reg.regEax.toInt
    else (k.procArray pid).pShare := by
  by_cases same : pid = k.current
  · subst same
    rw [interrupt_proc_current, served_share]
    simp
  · rw [interrupt_proc_other _ _ same]
    simp [same]

theorem interrupt_user {k' : Kernel} (entered : interrupt reg k = .user k') :
    reg.service ≠ .exit := by
  intro kind
  simp [interrupt, kind] at entered

theorem interrupt_returns (returns : reg.service ∈ [Service.user1, .user2, .user3, .user4]) :
    interrupt reg k = .user (interrupt reg k).kernel := by
  simp only [List.mem_cons, List.not_mem_nil, or_false] at returns
  rcases returns with kind | kind | kind | kind <;> simp [interrupt, kind, Machine.kernel]

theorem interrupt_schedules (gives : reg.service ∈ [Service.yield, .exit, .clock]) :
    interrupt reg k = .scheduling (interrupt reg k).kernel := by
  simp only [List.mem_cons, List.not_mem_nil, or_false] at gives
  rcases gives with kind | kind | kind <;> simp [interrupt, kind, Machine.kernel]

end Interrupt

inductive Label where
  | interrupt (caller : Nat) (reg : Registers)
  | dispatch (pid : Nat)
  | store
  deriving DecidableEq

inductive Step (sched : Kernel → Kernel → Prop) : Machine → Label → Machine → Prop where
  | interrupt (k : Kernel) (reg : Registers) :
      Step sched (.user k) (.interrupt k.current reg) (interrupt reg k)
  | dispatch {k k' : Kernel} (picked : sched k k') :
      Step sched (.scheduling k) (.dispatch k'.current) (.user k')
  | store (k : Kernel) (cursorpos lock : BitVec 32) (cells : BitVec 32 → BitVec 16) :
      Step sched (.user k) .store
        (.user { k with cursorpos := cursorpos, lock := lock, cells := cells })

section Step

variable {sched : Kernel → Kernel → Prop} {reg : Registers}

theorem step_returns (k : Kernel)
    (returns : reg.service ∈ [Service.user1, .user2, .user3, .user4]) :
    Step sched (.user k) (.interrupt k.current reg) (.user (interrupt reg k).kernel) :=
  interrupt_returns reg k returns ▸ .interrupt k reg

theorem step_schedules (k : Kernel) (gives : reg.service ∈ [Service.yield, .exit, .clock]) :
    Step sched (.user k) (.interrupt k.current reg) (.scheduling (interrupt reg k).kernel) :=
  interrupt_schedules reg k gives ▸ .interrupt k reg

theorem step_run {k : Kernel} (fuel : Nat) {pid : Nat}
    (ended : k.schedule fuel = some (k.run pid)) :
    Step Kernel.Schedules (.scheduling k) (.dispatch pid) (.user (k.run pid)) := by
  have picked : k.Schedules (k.run pid) := ⟨fuel, ended⟩
  exact Step.dispatch picked

end Step

/-- A run of the code: `start()`, and then any interrupts, with `schedule()` as scheduler. -/
abbrev Runs (boot : Boot) (trace : List (Label × Machine)) (last : Machine) : Prop :=
  Trace.Run (Step Kernel.Schedules) (start boot) trace last

def labels (trace : List (Label × Machine)) : List Label := trace.map Prod.fst

def Label.dispatched : Label → Option Nat
  | .dispatch pid => some pid
  | _ => none

def dispatches (trace : List (Label × Machine)) : List Nat :=
  (labels trace).filterMap Label.dispatched

def Label.isExit : Label → Prop
  | .interrupt _ reg => reg.service = .exit
  | _ => False

@[simp] theorem dispatches_nil : dispatches [] = [] := rfl

theorem dispatches_cons (label : Label) (m : Machine) (trace : List (Label × Machine)) :
    dispatches ((label, m) :: trace) = label.dispatched.toList ++ dispatches trace := by
  cases called : label.dispatched <;> simp [dispatches, labels, called]

@[simp] theorem dispatches_append (first second : List (Label × Machine)) :
    dispatches (first ++ second) = dispatches first ++ dispatches second := by
  simp [dispatches, labels]

theorem step_current {sched : Kernel → Kernel → Prop} {m m' : Machine} {label : Label}
    (step : Step sched m label m') (other : label.dispatched = none) :
    m'.kernel.current = m.kernel.current := by
  cases step with
  | interrupt k reg => exact interrupt_current reg k
  | dispatch => cases other
  | store => rfl

end SchedOS
