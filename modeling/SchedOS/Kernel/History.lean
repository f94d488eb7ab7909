import SchedOS.Kernel.Table

set_option autoImplicit false

namespace SchedOS

def lastValue (kind : Service) (pid : Nat) (past : List Label) : Int :=
  past.foldl (fun value label =>
    match label with
    | .interrupt caller reg =>
        if caller = pid ∧ reg.service = kind then reg.regEax.toInt else value
    | _ => value) 1

def Label.ticketCaller : Label → Option Nat
  | .interrupt caller reg => if reg.service = .user4 then some caller else none
  | _ => none

def ticketCalls (past : List Label) : List Nat := past.filterMap Label.ticketCaller

def Exited (pid : Nat) (status : BitVec 32) (past : List Label) : Prop :=
  ∃ reg, .interrupt pid reg ∈ past ∧ reg.service = .exit ∧ reg.regEax = status

theorem lastValue_interrupt (kind : Service) (pid caller : Nat) (reg : Registers)
    (past : List Label) : lastValue kind pid (past ++ [.interrupt caller reg]) =
      if caller = pid ∧ reg.service = kind then reg.regEax.toInt else lastValue kind pid past := by
  simp [lastValue]

theorem lastValue_other (kind : Service) (pid : Nat) {label : Label} (past : List Label)
    (other : ∀ caller reg, label ≠ .interrupt caller reg) :
    lastValue kind pid (past ++ [label]) = lastValue kind pid past := by
  cases label with
  | interrupt caller reg => exact absurd rfl (other caller reg)
  | dispatch | store => simp [lastValue]

theorem exited_interrupt (pid caller : Nat) (status : BitVec 32) (reg : Registers)
    (past : List Label) : Exited pid status (past ++ [.interrupt caller reg]) ↔
      Exited pid status past ∨ (pid = caller ∧ reg.service = .exit ∧ reg.regEax = status) := by
  constructor
  · rintro ⟨other, member, kind, value⟩
    rcases List.mem_append.mp member with before | last
    · exact .inl ⟨other, before, kind, value⟩
    · obtain ⟨rfl, rfl⟩ := Label.interrupt.inj (List.mem_singleton.mp last)
      exact .inr ⟨rfl, kind, value⟩
  · rintro (⟨other, before, kind, value⟩ | ⟨rfl, kind, value⟩)
    · exact ⟨other, List.mem_append_left _ before, kind, value⟩
    · exact ⟨reg, by simp, kind, value⟩

theorem exited_other (pid : Nat) (status : BitVec 32) {label : Label} (past : List Label)
    (other : ∀ caller reg, label ≠ .interrupt caller reg)
    (exited : Exited pid status (past ++ [label])) : Exited pid status past := by
  obtain ⟨reg, member, kind, value⟩ := exited
  rcases List.mem_append.mp member with before | last
  · exact ⟨reg, before, kind, value⟩
  · exact absurd (List.mem_singleton.mp last).symm (other pid reg)

structure SoldTo (calls : List Nat) (number : Nat) (tickets : Nat → Nat) : Prop where
  count : number = min maxTickets calls.length
  holder : ∀ ticket, ticket < number → calls[ticket]? = some (tickets ticket)

theorem SoldTo.log {calls : List Nat} {number : Nat} {tickets : Nat → Nat}
    (sold : SoldTo calls number tickets) : (List.range number).map tickets = calls.take number := by
  apply List.ext_getElem?
  intro ticket
  by_cases less : ticket < number
  · simp [less, ← sold.holder ticket less]
  · simp [less]

theorem SoldTo.sell {calls : List Nat} {number : Nat} {tickets : Nat → Nat}
    (sold : SoldTo calls number tickets) (room : number < maxTickets) (caller : Nat) :
    SoldTo (calls ++ [caller]) (number + 1) (Function.update tickets number caller) := by
  have all : number = calls.length := by have := sold.count; omega
  refine ⟨by rw [List.length_append, List.length_singleton]; omega, fun ticket less => ?_⟩
  by_cases last : ticket = number
  · subst last; simp [all]
  · rw [Function.update_of_ne last, List.getElem?_append_left (by omega)]
    exact sold.holder ticket (by omega)

theorem SoldTo.refuse {calls : List Nat} {number : Nat} {tickets : Nat → Nat}
    (sold : SoldTo calls number tickets) (full : ¬ number < maxTickets) (caller : Nat) :
    SoldTo (calls ++ [caller]) number tickets := by
  have enough := sold.count
  refine ⟨by rw [List.length_append, List.length_singleton]; omega, fun ticket less => ?_⟩
  rw [List.getElem?_append_left (by omega)]
  exact sold.holder ticket less

structure Recorded (past : List Label) (k : Kernel) : Prop where
  exited : ∀ pid status, Exited pid status past →
    (k.procArray pid).pState = .zombie ∧ (k.procArray pid).pExitStatus = status.toInt
  priorities : ∀ pid, 1 ≤ pid → pid < nprocs →
    (k.procArray pid).pPriority = lastValue .user1 pid past
  shares : ∀ pid, 1 ≤ pid → pid < nprocs →
    (k.procArray pid).pShare = lastValue .user2 pid past
  sold : SoldTo (ticketCalls past) k.numTickets k.tickets

theorem recorded_start (boot : Boot) : Recorded [] boot.kernel := by
  refine ⟨?_, fun pid low high => ?_, fun pid low high => ?_, rfl, ?_⟩
  · rintro pid status ⟨reg, member, -⟩
    exact absurd member (List.not_mem_nil)
  · exact congrArg Process.pPriority (boot.kernel_proc low high)
  · exact congrArg Process.pShare (boot.kernel_proc low high)
  · intro ticket less
    exact absurd less (Nat.not_lt_zero _)

theorem Recorded.transfer {past : List Label} {k k' : Kernel} (recorded : Recorded past k)
    (procs : ∀ pid, (k'.procArray pid).pState = (k.procArray pid).pState ∧
      (k'.procArray pid).pExitStatus = (k.procArray pid).pExitStatus ∧
      (k'.procArray pid).pPriority = (k.procArray pid).pPriority ∧
      (k'.procArray pid).pShare = (k.procArray pid).pShare)
    (number : k'.numTickets = k.numTickets) (tickets : k'.tickets = k.tickets)
    {label : Label} (other : ∀ caller reg, label ≠ .interrupt caller reg) :
    Recorded (past ++ [label]) k' := by
  have calls : ticketCalls (past ++ [label]) = ticketCalls past := by
    cases label with
    | interrupt caller reg => exact absurd rfl (other caller reg)
    | dispatch | store => simp [ticketCalls, Label.ticketCaller]
  refine ⟨fun pid status exited => ?_, fun pid low high => ?_, fun pid low high => ?_, ?_⟩
  · rw [(procs pid).1, (procs pid).2.1]
    exact recorded.exited pid status (exited_other pid status past other exited)
  · rw [(procs pid).2.2.1, lastValue_other _ _ _ other]
    exact recorded.priorities pid low high
  · rw [(procs pid).2.2.2, lastValue_other _ _ _ other]
    exact recorded.shares pid low high
  · rw [number, calls, tickets]
    exact recorded.sold

theorem Recorded.interrupt {past : List Label} {k : Kernel} (recorded : Recorded past k)
    (table : k.WellFormed) (runnable : k.Runnable k.current) (reg : Registers) :
    Recorded (past ++ [.interrupt k.current reg]) (interrupt reg k).kernel := by
  refine ⟨fun pid status exited => ?_, fun pid low high => ?_, fun pid low high => ?_, ?_⟩
  · rw [exited_interrupt] at exited
    rcases exited with before | ⟨rfl, kind, rfl⟩
    · -- A process that has exited is not the one that is running.
      have gone := recorded.exited pid status before
      have other : pid ≠ k.current := by
        rintro rfl
        simp [Kernel.Runnable, gone.1] at runnable
      rw [interrupt_proc_other _ _ other]
      exact gone
    · rw [interrupt_proc_current]
      simp [Process.served, kind]
  · rw [interrupt_priority, lastValue_interrupt, recorded.priorities pid low high]
    exact if_congr (and_congr_left' eq_comm) rfl rfl
  · rw [interrupt_share, lastValue_interrupt, recorded.shares pid low high]
    exact if_congr (and_congr_left' eq_comm) rfl rfl
  · obtain ⟨number, tickets⟩ := interrupt_tickets reg k
    rw [number, tickets]
    by_cases sells : reg.service = .user4
    · have calls : ticketCalls (past ++ [.interrupt k.current reg]) =
          ticketCalls past ++ [k.current] := by
        simp [ticketCalls, Label.ticketCaller, sells]
      rw [calls]
      by_cases room : k.numTickets < maxTickets
      · simp only [sells, room, and_self, if_true, table.pid]
        exact recorded.sold.sell room k.current
      · simp only [sells, room, and_false, if_false]
        exact recorded.sold.refuse room k.current
    · have calls : ticketCalls (past ++ [.interrupt k.current reg]) = ticketCalls past := by
        simp [ticketCalls, Label.ticketCaller, sells]
      simp only [calls, sells, false_and, if_false]
      exact recorded.sold

theorem runs_recorded {boot : Boot} (algorithm : boot.schedulingAlgorithm ≠ 1)
    {trace : List (Label × Machine)} {last : Machine} (run : Runs boot trace last) :
    Recorded (labels trace) last.kernel := by
  have both := run.history (fun past (m : Machine) => Recorded past m.kernel ∧
    m.WellFormed ∧ m.kernel.schedulingAlgorithm = boot.schedulingAlgorithm)
    ⟨recorded_start boot, start_wellFormed boot, rfl⟩ ?_
  · exact both.1
  rintro past m label m' ⟨recorded, table, same⟩ step
  have tested : m.kernel.schedulingAlgorithm ≠ 1 := same ▸ algorithm
  refine ⟨?_, step_kept algorithm table same step⟩
  cases step with
  | interrupt k reg => exact recorded.interrupt table.1 (table.2 k rfl) reg
  | dispatch picked =>
      obtain ⟨pid, -, -, times, rngs, rfl⟩ := Kernel.schedules_picks table.1 tested picked
      apply recorded.transfer
      · exact fun _ => ⟨rfl, rfl, rfl, rfl⟩
      · rfl
      · rfl
      · simp
  | store k cursorpos lock cells =>
      apply recorded.transfer
      · exact fun _ => ⟨rfl, rfl, rfl, rfl⟩
      · rfl
      · rfl
      · simp

structure UserInvariant (past : List Label) (k : Kernel) : Prop where
  currentBound : 1 ≤ k.current ∧ k.current ≤ 4
  currentState : (k.procArray k.current).pState = .runnable
  unused : (k.procArray 0).pState = .empty
  pids : ∀ pid, pid ≤ 4 → (k.procArray pid).pPid = pid
  states : ∀ pid, 1 ≤ pid → pid ≤ 4 →
    (k.procArray pid).pState = .runnable ∨ (k.procArray pid).pState = .zombie
  exited : ∀ pid status, Exited pid status past →
    (k.procArray pid).pState = .zombie ∧ (k.procArray pid).pExitStatus = status.toInt ∧
      k.current ≠ pid
  priorities : ∀ pid, 1 ≤ pid → pid ≤ 4 →
    (k.procArray pid).pPriority = lastValue .user1 pid past
  shares : ∀ pid, 1 ≤ pid → pid ≤ 4 →
    (k.procArray pid).pShare = lastValue .user2 pid past
  numTickets : k.numTickets = min 200 (ticketCalls past).length
  tickets : (List.range k.numTickets).map k.tickets = (ticketCalls past).take k.numTickets

theorem kernel_invariant (boot : Boot) (algorithm : boot.schedulingAlgorithm ∈ [0, 2, 3, 4])
    (trace : List (Label × Machine)) (k : Kernel) (run : Runs boot trace (.user k)) :
    UserInvariant (labels trace) k := by
  have tested := ne_strict algorithm
  obtain ⟨⟨table, user⟩, -⟩ := runs_wellFormed tested run
  have recorded := runs_recorded tested run
  have runnable := user k rfl
  have inside {pid : Nat} (le : pid ≤ 4) : pid < nprocs := Nat.lt_succ_of_le le
  exact {
    currentBound := ⟨table.current.1, Nat.le_of_lt_succ table.current.2⟩
    currentState := runnable
    unused := table.unused
    pids := fun pid le => table.pids pid (inside le)
    states := fun pid low high => table.states pid low (inside high)
    exited := fun pid status exited => by
      obtain ⟨zombie, value⟩ := recorded.exited pid status exited
      refine ⟨zombie, value, ?_⟩
      rintro rfl
      exact absurd (runnable.symm.trans zombie) (by decide)
    priorities := fun pid low high => recorded.priorities pid low (inside high)
    shares := fun pid low high => recorded.shares pid low (inside high)
    numTickets := recorded.sold.count
    tickets := recorded.sold.log }

theorem kernel_invariant_exit : ∃ k, k.current = 2 ∧
    UserInvariant [.interrupt 1 (trap 49 7), .dispatch 2] k := by
  have first : Step Kernel.Schedules _ _ _ := .interrupt (bareBoot 0).kernel (trap 49 7)
  have run : Runs (bareBoot 0) _ _ := .cons first (.cons (.dispatch ⟨1, rfl⟩) (.nil _))
  exact ⟨_, rfl, kernel_invariant (bareBoot 0) (by decide) _ _ run⟩

end SchedOS
