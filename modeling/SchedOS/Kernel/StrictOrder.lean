import Mathlib.Order.Bounds.Defs
import SchedOS.Kernel.Walk

set_option autoImplicit false

namespace SchedOS

namespace Kernel

variable {k k' : Kernel}

structure Orderly (k : Kernel) : Prop where
  ends : k.SomeRunnable → ∃ k', k.Schedules k'
  lowest : ∀ k', k.Schedules k' → IsLeast {pid | 1 ≤ pid ∧ pid ≤ 4 ∧ k.Runnable pid} k'.current

/-- The processes have run in order: those before the current one have exited, those after it
have not run yet. -/
structure InOrder (k : Kernel) : Prop where
  table : k.WellFormed
  algorithm : k.schedulingAlgorithm = 1
  before : ∀ pid, pid < k.current → ¬ k.Runnable pid
  after : ∀ pid, k.current < pid → pid < nprocs → k.Runnable pid

def nextStrict (k : Kernel) (pid : Nat) : Nat := if ¬ k.Runnable pid then pid + 1 else pid

theorem schedules_strict (algorithm : k.schedulingAlgorithm = 1) :
    k.Schedules k' ↔ k' = k.run (k.nextStrict (k.procArray k.current).pPid) := by
  have pass : k.strictPass (k.procArray k.current).pPid = .leave _ := rfl
  rw [nextStrict, ← Loop.leaves_leave pass]
  simp only [Schedules, schedule, algorithm]
  rfl

theorem InOrder.schedules (order : k.InOrder) :
    k.Schedules k' ↔ k' = k.run (k.nextStrict k.current) := by
  rw [schedules_strict order.algorithm, order.table.pid]

theorem InOrder.next (order : k.InOrder) (left : k.SomeRunnable) :
    IsLeast {pid | 1 ≤ pid ∧ pid ≤ 4 ∧ k.Runnable pid}
      (k.nextStrict k.current) := by
  unfold nextStrict
  obtain ⟨low, high⟩ := order.table.current
  simp only [nprocs] at high
  by_cases runnable : k.Runnable k.current
  · rw [if_neg (not_not.mpr runnable)]
    refine ⟨⟨low, by omega, runnable⟩, ?_⟩
    rintro other ⟨-, -, ready⟩
    by_contra less
    exact order.before other (by omega) ready
  · rw [if_pos runnable]
    obtain ⟨pid, -, bound, ready⟩ := left
    have later (other : Nat) (ready : k.Runnable other) : k.current < other := by
      rcases Nat.lt_trichotomy other k.current with less | rfl | more
      · exact absurd ready (order.before other less)
      · exact absurd ready runnable
      · exact more
    have := later pid ready
    refine ⟨⟨by omega, by omega, order.after _ (by omega) (by simp only [nprocs]; omega)⟩, ?_⟩
    rintro other ⟨-, -, ready⟩
    exact later other ready

theorem InOrder.orderly (order : k.InOrder) (left : k.SomeRunnable) : k.Orderly := by
  refine ⟨fun _ => ⟨_, order.schedules.mpr rfl⟩, fun k' ended => ?_⟩
  rw [order.schedules.mp ended]
  exact order.next left

theorem InOrder.dispatch (order : k.InOrder) (left : k.SomeRunnable) (ended : k.Schedules k') :
    k'.InOrder ∧ k'.Runnable k'.current := by
  have least := (order.orderly left).lowest k' ended
  have moved := order.schedules.mp ended
  have ahead : k.current ≤ k.nextStrict k.current := by
    unfold nextStrict
    split_ifs <;> omega
  generalize k.nextStrict k.current = next at moved ahead
  subst moved
  obtain ⟨⟨low, high, runnable⟩, first⟩ := least
  have inside : next < nprocs := Nat.lt_succ_of_le high
  have table : (k.run next).WellFormed :=
    ⟨order.table.unused, order.table.pids, order.table.states, order.table.holders, low, inside⟩
  refine ⟨⟨table, order.algorithm, fun pid less ready => ?_, fun pid more bound => ?_⟩, runnable⟩
  · have := first ⟨order.table.positive ready, (Nat.le_of_lt less).trans high, ready⟩
    exact absurd this (Nat.not_le.mpr less)
  · exact order.after pid (ahead.trans_lt more) bound

end Kernel

def FindsWork (m : Machine) : Prop := ∀ k, m = .scheduling k → k.SomeRunnable

theorem step_inOrder {m m' : Machine} {label : Label}
    (before : m.kernel.InOrder ∧ ∀ k, m = .user k → k.Runnable k.current) (works : FindsWork m)
    (step : Step Kernel.Schedules m label m') :
    m'.kernel.InOrder ∧ ∀ k, m' = .user k → k.Runnable k.current := by
  obtain ⟨order, user⟩ := before
  cases step with
  | interrupt k reg =>
      have good := interrupt_wellFormed reg order.table (user k rfl)
      refine ⟨⟨good.1, (interrupt_algorithm reg k).trans order.algorithm, ?_, ?_⟩, good.2⟩
      · intro pid less
        rw [interrupt_current] at less
        unfold Kernel.Runnable
        rw [interrupt_proc_other _ _ (Nat.ne_of_lt less)]
        exact order.before pid less
      · intro pid more bound
        rw [interrupt_current] at more
        unfold Kernel.Runnable
        rw [interrupt_proc_other _ _ (Nat.ne_of_gt more)]
        exact order.after pid more bound
  | dispatch picked =>
      obtain ⟨next, runnable⟩ := order.dispatch (works _ rfl) picked
      exact ⟨next, by rintro k ⟨⟩; exact runnable⟩
  | store k cursorpos lock cells =>
      refine ⟨⟨⟨order.table.unused, order.table.pids, order.table.states, order.table.holders,
        order.table.current⟩, order.algorithm, order.before, order.after⟩, ?_⟩
      rintro _ ⟨⟩
      exact user k rfl

theorem start_inOrder {boot : Boot} (algorithm : boot.schedulingAlgorithm = 1) :
    (start boot).kernel.InOrder := by
  refine ⟨(start_wellFormed boot).1, algorithm, fun pid less ready => ?_, fun pid more bound => ?_⟩
  · have positive := (start_wellFormed boot).1.positive ready
    exact absurd (show pid < 1 from less) (by omega)
  · exact congrArg Process.pState (boot.kernel_proc (Nat.le_of_lt more) bound)

theorem strict_algorithm {m m' : Machine} {label : Label}
    (algorithm : m.kernel.schedulingAlgorithm = 1) (step : Step Kernel.Schedules m label m') :
    m'.kernel.schedulingAlgorithm = 1 := by
  cases step with
  | interrupt k reg => exact (interrupt_algorithm reg k).trans algorithm
  | dispatch picked => rw [(Kernel.schedules_strict algorithm).mp picked]; exact algorithm
  | store => exact algorithm

/-- A run keeps strict pid order in every call of `schedule()` if and only if each of its calls
finds a runnable process: the call after the last exit runs the memory behind the table. -/
theorem strict_order (boot : Boot) (algorithm : boot.schedulingAlgorithm = 1)
    (trace : List (Label × Machine)) (last : Machine) (run : Runs boot trace last) :
    (∀ x ∈ trace, ∀ k, x.2 = .scheduling k → k.Orderly) ↔
      ∀ x ∈ trace, ∀ k, x.2 = .scheduling k → k.SomeRunnable := by
  have same := run.always (fun m => m.kernel.schedulingAlgorithm = 1)
    algorithm fun m label m' before step => strict_algorithm before step
  constructor
  · intro orderly x member k entered
    have one : k.schedulingAlgorithm = 1 := by simpa [entered, Machine.kernel] using same x member
    obtain ⟨inside, -⟩ :=
      (orderly x member k entered).lowest _ ((Kernel.schedules_strict one).mpr rfl)
    exact ⟨_, inside⟩
  · intro works x member k entered
    have working := run.along FindsWork (by rintro k ⟨⟩) works
    have order := working.always (fun m => m.kernel.InOrder ∧
        ∀ k, m = .user k → k.Runnable k.current)
      ⟨start_inOrder algorithm, (start_wellFormed boot).2⟩
      (fun m label m' before step => step_inOrder before step.2 step.1) x member
    have found : k.InOrder := by simpa [entered, Machine.kernel] using order.1
    exact found.orderly (works x member k entered)

private def afterExits : List Nat → Kernel
  | [] => (interrupt (trap 49 0) (bareBoot 1).kernel).kernel
  | pid :: earlier => (interrupt (trap 49 0) ((afterExits earlier).run pid)).kernel

theorem strict_order_exit : (afterExits []).Orderly := by
  have run : Runs (bareBoot 1)
      [(.interrupt 1 (trap 49 0), .scheduling (afterExits []))] (.scheduling (afterExits [])) :=
    .cons (step_schedules _ (by decide)) (.nil _)
  apply (strict_order (bareBoot 1) rfl _ _ run).mpr _ _ (List.mem_singleton.mpr rfl) _ rfl
  intro x member k entered
  rw [List.mem_singleton.mp member] at entered
  obtain rfl := Machine.scheduling.inj entered
  exact ⟨2, by decide, by decide, rfl⟩

theorem strict_order_fails : ¬ ∀ boot : Boot, boot.schedulingAlgorithm = 1 →
    ∀ trace last, Runs boot trace last →
      ∀ x ∈ trace, ∀ k, x.2 = .scheduling k → k.Orderly := by
  intro ordered
  have run : Runs (bareBoot 1)
      [(.interrupt 1 (trap 49 0), .scheduling (afterExits [])),
        (.dispatch 2, .user ((afterExits []).run 2)),
        (.interrupt 2 (trap 49 0), .scheduling (afterExits [2])),
        (.dispatch 3, .user ((afterExits [2]).run 3)),
        (.interrupt 3 (trap 49 0), .scheduling (afterExits [3, 2])),
        (.dispatch 4, .user ((afterExits [3, 2]).run 4)),
        (.interrupt 4 (trap 49 0), .scheduling (afterExits [4, 3, 2]))]
      (.scheduling (afterExits [4, 3, 2])) :=
    .cons (step_schedules _ (by decide)) <| .cons (step_run 1 rfl) <|
      .cons (step_schedules _ (by decide)) <| .cons (step_run 1 rfl) <|
      .cons (step_schedules _ (by decide)) <| .cons (step_run 1 rfl) <|
      .cons (step_schedules _ (by decide)) <| .nil _
  have orderly := ordered (bareBoot 1) rfl _ _ run _ (List.mem_of_getLast? rfl) _ rfl
  have beyond := orderly.lowest ((afterExits [4, 3, 2]).run 5) ⟨1, rfl⟩
  exact absurd beyond.1.2.1 (by decide : ¬ 5 ≤ 4)

end SchedOS
