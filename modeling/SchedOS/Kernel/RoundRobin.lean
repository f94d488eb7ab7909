import SchedOS.Kernel.Walk

set_option autoImplicit false

namespace SchedOS

open Rotation

namespace Kernel

variable {k k' : Kernel}

theorem roundRobin_scan : k.roundRobinPass = scan nprocs k.Runnable k.run := rfl

theorem roundRobin_leaves (table : k.WellFormed) :
    Loop.Leaves k.roundRobinPass k.current k' ↔
      ∃ pid, IsNext nprocs k.Runnable k.current pid ∧ k' = k.run pid := by
  rw [roundRobin_scan]
  exact scan_leaves_iff table.current.2

theorem schedules_roundRobin (table : k.WellFormed) (algorithm : k.schedulingAlgorithm = 0) :
    k.Schedules k' ↔ ∃ pid, IsNext nprocs k.Runnable k.current pid ∧ k' = k.run pid := by
  rw [← roundRobin_leaves table]
  simp only [Schedules, schedule, algorithm, if_true, table.pid]
  rfl

theorem roundRobin_ends (table : k.WellFormed) :
    (∃ k', Loop.Leaves k.roundRobinPass k.current k') ↔ k.SomeRunnable := by
  rw [table.someRunnable]
  constructor
  · rintro ⟨k', left⟩
    obtain ⟨pid, next, -⟩ := (roundRobin_leaves table).mp left
    exact ⟨pid, next.bound, next.stop⟩
  · rintro ⟨pid, bound, runnable⟩
    exact scan_ends k.run table.current.2 bound runnable

theorem schedules_roundRobin_ends (table : k.WellFormed) (algorithm : k.schedulingAlgorithm = 0) :
    (∃ k', k.Schedules k') ↔ k.SomeRunnable := by
  simp only [schedules_roundRobin table algorithm, ← roundRobin_leaves table]
  exact roundRobin_ends table

end Kernel

def JustDispatched (before : List (Label × Machine)) (pid : Nat) : Prop :=
  (before = [] ∧ pid = 1) ∨ ∃ earlier m, before = earlier ++ [(.dispatch pid, m)]

theorem JustDispatched.current {boot : Boot} {before : List (Label × Machine)} {m : Machine}
    {pid : Nat} (just : JustDispatched before pid) (run : Runs boot before m) :
    m.kernel.current = pid := by
  rcases just with ⟨rfl, rfl⟩ | ⟨earlier, m, rfl⟩
  · cases run; rfl
  · obtain ⟨_, _, last, rfl⟩ := run.split_snoc
    cases last; rfl

theorem roundRobin_spares {pid : Nat} (bound : pid < nprocs) {m last : Machine}
    {trace : List (Label × Machine)} (run : Trace.Run (TableStep 0) m trace last)
    (start : m.kernel.Runnable pid) (all : ∀ x ∈ trace, x.2.kernel.Runnable pid) :
    Spares nprocs pid m.kernel.current (dispatches trace) := by
  apply walk_spares (run.along (fun m => m.kernel.Runnable pid) start all)
  · exact fun _ _ _ step => step.1.1
  · rintro k label k' ⟨⟨step, table, algorithm⟩, runnable⟩
    cases step with
    | dispatch picked =>
        obtain ⟨chosen, next, rfl⟩ :=
          (Kernel.schedules_roundRobin table.1 algorithm).mp picked
        exact ⟨next.bound, next.first pid bound runnable⟩

theorem round_robin (boot : Boot) (algorithm : boot.schedulingAlgorithm = 0) :
    (∀ trace k, Runs boot trace (.scheduling k) →
      ((∃ k', k.Schedules k') ↔ k.SomeRunnable) ∧
      ∀ k', k.Schedules k' → k.Runnable k'.current) ∧
    (∀ before between m m' p, Runs boot before m → JustDispatched before p →
      Trace.Run (Step Kernel.Schedules) m (between ++ [(.dispatch p, m')]) m' →
      p ∉ dispatches between →
      ∀ q, 1 ≤ q → q ≤ 4 → q ≠ p → m.kernel.Runnable q →
        (∀ x ∈ between, x.2.kernel.Runnable q) → (dispatches between).count q = 1) := by
  have tested : boot.schedulingAlgorithm ≠ 1 := by rw [algorithm]; decide
  constructor
  · intro trace k run
    obtain ⟨⟨table, -⟩, same⟩ := runs_wellFormed tested run
    rw [algorithm] at same
    constructor
    · exact Kernel.schedules_roundRobin_ends table same
    · intro k' ended
      obtain ⟨pid, next, rfl⟩ := (Kernel.schedules_roundRobin table same).mp ended
      exact next.stop
  · intro before between m m' p run just after absent q low high other start throughout
    obtain ⟨table, same⟩ := runs_wellFormed tested run
    rw [algorithm] at same
    have current := just.current run
    have after := tableSteps (by decide) after table same
    obtain ⟨middle, first, last, -⟩ := after.split_snoc
    -- `p` gets the processor at the end, so it has been runnable all the time.
    have runnable : middle.kernel.Runnable p ∧
        ∀ r, middle.kernel.Runnable r → m'.kernel.Runnable r := by
      obtain ⟨step, good, zero⟩ := last
      cases step with
      | dispatch picked =>
          obtain ⟨pid, next, rfl⟩ := (Kernel.schedules_roundRobin good.1 zero).mp picked
          exact ⟨next.stop, fun r ready => ready⟩
    obtain ⟨startP, throughoutP⟩ :=
      first.backward (fun m => m.kernel.Runnable p) runnable.1 fun _ _ _ step =>
        step.runnable (by decide)
    have spares (r : Nat) (bound : r < nprocs) (begin : m.kernel.Runnable r)
        (all : ∀ x ∈ between, x.2.kernel.Runnable r) :
        Spares nprocs r p (dispatches between ++ [p]) := by
      have walk := roundRobin_spares bound after begin fun x member => by
        rcases List.mem_append.mp member with inside | last
        · exact all x inside
        · rw [List.mem_singleton.mp last]
          exact runnable.2 r
            (first.final (fun m => m.kernel.Runnable r) begin all)
      rw [current] at walk
      simpa [dispatches_cons, Label.dispatched] using walk
    have bound : p < nprocs := current ▸ table.1.current.2
    exact turns_between bound (Nat.lt_succ_of_le high) other _ absent
      (spares p bound startP throughoutP) (spares q (Nat.lt_succ_of_le high) start throughout)

private def afterYields : List Nat → Kernel
  | [] => (interrupt (trap 48 0) (bareBoot 0).kernel).kernel
  | pid :: earlier => (interrupt (trap 48 0) ((afterYields earlier).run pid)).kernel

theorem round_robin_round : ∃ between last,
    Trace.Run (Step Kernel.Schedules) (start (bareBoot 0)) between last ∧
      (dispatches between).length = 3 ∧ (dispatches between).count 3 = 1 := by
  have between : Trace.Run (Step Kernel.Schedules) (start (bareBoot 0))
      [(.interrupt 1 (trap 48 0), .scheduling (afterYields [])),
        (.dispatch 2, .user ((afterYields []).run 2)),
        (.interrupt 2 (trap 48 0), .scheduling (afterYields [2])),
        (.dispatch 3, .user ((afterYields [2]).run 3)),
        (.interrupt 3 (trap 48 0), .scheduling (afterYields [3, 2])),
        (.dispatch 4, .user ((afterYields [3, 2]).run 4)),
        (.interrupt 4 (trap 48 0), .scheduling (afterYields [4, 3, 2]))]
      (.scheduling (afterYields [4, 3, 2])) :=
    .cons (step_schedules _ (by decide)) <| .cons (step_run 2 rfl) <|
      .cons (step_schedules _ (by decide)) <| .cons (step_run 2 rfl) <|
      .cons (step_schedules _ (by decide)) <| .cons (step_run 2 rfl) <|
      .cons (step_schedules _ (by decide)) <| .nil _
  have run := between.snoc (@step_run (afterYields [4, 3, 2]) 2 1 rfl)
  refine ⟨_, _, between, rfl, (round_robin (bareBoot 0) rfl).2 [] _ _ _ 1 (.nil _)
    (.inl ⟨rfl, rfl⟩) run (by decide) 3 (by decide) (by decide) (by decide) rfl ?_⟩
  intro x member
  fin_cases member <;> rfl

end SchedOS
