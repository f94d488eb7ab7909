import SchedOS.Kernel.History
import SchedOS.Kernel.Walk

set_option autoImplicit false

namespace SchedOS

open Rotation

namespace Kernel

variable {k k' : Kernel}

def priorities (k : Kernel) (pid : Nat) : Int := (k.procArray pid).pPriority

def MinimalPriority (k : Kernel) (pid : Nat) : Prop :=
  k.Runnable pid ∧
    ∀ other, other < nprocs → k.Runnable other → k.priorities pid ≤ k.priorities other

instance (k : Kernel) : DecidablePred k.MinimalPriority :=
  fun _ => inferInstanceAs (Decidable (_ ∧ _))

def PrioritiesFit (k : Kernel) : Prop :=
  ∀ pid, pid < nprocs → k.Runnable pid → k.priorities pid ≤ intMax

theorem lowestPriority_spec (k : Kernel) (start : Int) :
    k.lowestPriority start ≤ start ∧
    (∀ pid, pid < nprocs → k.Runnable pid → k.lowestPriority start ≤ k.priorities pid) ∧
    (k.lowestPriority start = start ∨
      ∃ pid, pid < nprocs ∧ k.Runnable pid ∧ k.lowestPriority start = k.priorities pid) := by
  have general (n : Nat) :
      let lowest := (List.range n).foldl (fun lowest i =>
        if (k.procArray i).pPriority < lowest ∧ k.Runnable i then (k.procArray i).pPriority
        else lowest) start
      lowest ≤ start ∧ (∀ pid, pid < n → k.Runnable pid → lowest ≤ k.priorities pid) ∧
      (lowest = start ∨ ∃ pid, pid < n ∧ k.Runnable pid ∧ lowest = k.priorities pid) := by
    -- The minimum over the entries that the loop has seen so far.
    induction n with
    | zero => simp
    | succ n ih =>
        simp only [List.range_succ, List.foldl_append, List.foldl_cons, List.foldl_nil]
        generalize (List.range n).foldl _ start = lowest at ih
        obtain ⟨under, lower, attained⟩ := ih
        by_cases smaller : (k.procArray n).pPriority < lowest ∧ k.Runnable n
        · rw [if_pos smaller]
          refine ⟨(smaller.1.trans_le under).le, fun pid less ready => ?_,
            .inr ⟨n, by omega, smaller.2, rfl⟩⟩
          rcases Nat.lt_succ_iff_lt_or_eq.mp less with before | rfl
          · exact (smaller.1.trans_le (lower pid before ready)).le
          · exact le_rfl
        · rw [if_neg smaller]
          refine ⟨under, fun pid less ready => ?_, ?_⟩
          · rcases Nat.lt_succ_iff_lt_or_eq.mp less with before | rfl
            · exact lower pid before ready
            · exact not_lt.mp fun below => smaller ⟨below, ready⟩
          · rcases attained with same | ⟨pid, less, ready, same⟩
            · exact .inl same
            · exact .inr ⟨pid, by omega, ready, same⟩
  exact general nprocs

theorem lowestPriority_again (k : Kernel) :
    k.lowestPriority (k.lowestPriority intMax) = k.lowestPriority intMax := by
  obtain ⟨under, -, attained⟩ := lowestPriority_spec k (k.lowestPriority intMax)
  obtain ⟨-, lower, -⟩ := lowestPriority_spec k intMax
  rcases attained with same | ⟨pid, bound, ready, same⟩
  · exact same
  · exact le_antisymm under (same ▸ lower pid bound ready)

theorem minimalPriority_iff (fit : k.PrioritiesFit) {pid : Nat} (bound : pid < nprocs) :
    (k.procArray pid).pPriority = k.lowestPriority intMax ∧ k.Runnable pid ↔
      k.MinimalPriority pid := by
  obtain ⟨-, lower, attained⟩ := lowestPriority_spec k intMax
  constructor
  · rintro ⟨same, ready⟩
    exact ⟨ready, fun other otherBound otherReady =>
      (show k.priorities pid = _ from same) ▸ lower other otherBound otherReady⟩
  · rintro ⟨ready, least⟩
    refine ⟨le_antisymm ?_ (lower pid bound ready), ready⟩
    rcases attained with same | ⟨other, otherBound, otherReady, same⟩
    · rw [same]; exact fit pid bound ready
    · rw [same]; exact least other otherBound otherReady

theorem priority_scan (fit : k.PrioritiesFit) (pid fuel : Nat) :
    Loop.run k.priorityPass fuel (pid, intMax) =
      Loop.run (scan nprocs k.MinimalPriority k.run) fuel pid := by
  -- The first pass finds the minimum, and every later one starts from it.
  let related := fun (s : Nat × Int) (t : Nat) => s.1 = t ∧
    (s.2 = intMax ∨ s.2 = k.lowestPriority intMax)
  apply Loop.run_congr related _ ⟨rfl, .inl rfl⟩
  rintro ⟨here, lowest⟩ _ ⟨rfl, known⟩
  have found : k.lowestPriority lowest = k.lowestPriority intMax := by
    rcases known with rfl | rfl
    · rfl
    · exact lowestPriority_again k
  have test := minimalPriority_iff fit (Nat.mod_lt (here + 1) (show nprocs > 0 by decide))
  simp only [priorityPass, found, scan, test]
  by_cases minimal : k.MinimalPriority ((here + 1) % nprocs)
  · exact .inr ⟨_, if_pos minimal, if_pos minimal⟩
  · exact .inl ⟨_, _, if_neg minimal, if_neg minimal, rfl, .inr rfl⟩

theorem schedules_priority (table : k.WellFormed) (algorithm : k.schedulingAlgorithm = 2)
    (fit : k.PrioritiesFit) :
    k.Schedules k' ↔ ∃ pid, IsNext nprocs k.MinimalPriority k.current pid ∧ k' = k.run pid := by
  rw [← scan_leaves_iff table.current.2]
  simp only [Schedules, schedule, algorithm, table.pid, priority_scan fit]
  rfl

theorem exists_minimal (table : k.WellFormed) (some : k.SomeRunnable) :
    ∃ pid, pid < nprocs ∧ k.MinimalPriority pid := by
  obtain ⟨pid, bound, ready⟩ := table.someRunnable.mp some
  let ready := (Finset.range nprocs).filter k.Runnable
  obtain ⟨least, member, minimal⟩ := ready.exists_min_image k.priorities ⟨pid, by simp [ready, *]⟩
  simp only [ready, Finset.mem_filter, Finset.mem_range] at member minimal
  exact ⟨least, member.1, member.2, fun other otherBound otherReady =>
    minimal other ⟨otherBound, otherReady⟩⟩

theorem schedules_priority_ends (table : k.WellFormed) (algorithm : k.schedulingAlgorithm = 2)
    (fit : k.PrioritiesFit) : (∃ k', k.Schedules k') ↔ k.SomeRunnable := by
  simp only [schedules_priority table algorithm fit]
  constructor
  · rintro ⟨k', pid, next, -⟩
    exact table.someRunnable.mpr ⟨pid, next.bound, next.stop.1⟩
  · intro some
    obtain ⟨pid, bound, minimal⟩ := exists_minimal table some
    obtain ⟨k', left⟩ := scan_ends k.run table.current.2 bound minimal
    exact ⟨k', (scan_leaves_iff table.current.2).mp left⟩

end Kernel

theorem lastValue_le (kind : Service) (pid : Nat) (past : List Label) :
    lastValue kind pid past ≤ intMax := by
  induction past using List.reverseRecOn with
  | nil => exact (by decide : (1 : Int) ≤ intMax)
  | append_singleton past label ih =>
      cases label with
      | interrupt caller reg =>
          rw [lastValue_interrupt]
          split_ifs
          · have := BitVec.two_mul_toInt_lt (x := reg.regEax)
            simp only [intMax]
            omega
          · exact ih
      | dispatch | store => rwa [lastValue_other _ _ _ (by simp)]

theorem runs_prioritiesFit {boot : Boot} (algorithm : boot.schedulingAlgorithm ≠ 1)
    {trace : List (Label × Machine)} {last : Machine} (run : Runs boot trace last) :
    last.kernel.PrioritiesFit := by
  intro pid bound ready
  have positive := (runs_wellFormed algorithm run).1.1.positive ready
  have value := (runs_recorded algorithm run).priorities pid positive bound
  exact value.trans_le (lastValue_le _ _ _)

structure SamePriorities (k : Kernel) (m : Machine) : Prop where
  table : m.WellFormed
  algorithm : m.kernel.schedulingAlgorithm = 2
  runnable : ∀ pid, m.kernel.Runnable pid ↔ k.Runnable pid
  priorities : m.kernel.priorities = k.priorities

namespace SamePriorities

variable {k : Kernel} {m m' : Machine} {label : Label}

theorem minimal (same : SamePriorities k m) : m.kernel.MinimalPriority = k.MinimalPriority := by
  funext pid
  simp only [Kernel.MinimalPriority, same.runnable, same.priorities]

theorem step (same : SamePriorities k m) (step : Undisturbed Kernel.priorities m label m') :
    SamePriorities k m' := by
  have tested : m.kernel.schedulingAlgorithm ≠ 1 := by rw [same.algorithm]; decide
  obtain ⟨table, algorithm⟩ := step_kept (by decide) same.table same.algorithm step.1
  exact {
    table := table
    algorithm := algorithm
    runnable := fun pid => (step.runnable same.table tested pid).trans (same.runnable pid)
    priorities := step.2.2.trans same.priorities }

theorem dispatch (same : SamePriorities k m) (fit : k.PrioritiesFit) {k' : Kernel}
    (picked : m.kernel.Schedules k') :
    IsNext nprocs k.MinimalPriority m.kernel.current k'.current := by
  have fits : m.kernel.PrioritiesFit := fun pid bound ready =>
    same.priorities ▸ fit pid bound ((same.runnable pid).mp ready)
  obtain ⟨pid, next, rfl⟩ :=
    (Kernel.schedules_priority same.table.1 same.algorithm fits).mp picked
  exact same.minimal ▸ next

end SamePriorities

theorem priority_schedule (boot : Boot) (algorithm : boot.schedulingAlgorithm = 2)
    (trace : List (Label × Machine)) (k : Kernel) (run : Runs boot trace (.scheduling k)) :
    ((∃ k', k.Schedules k') ↔ k.SomeRunnable) ∧
    (∀ k', k.Schedules k' → IsNext nprocs k.MinimalPriority k.current k'.current) ∧
    ∀ window last, Trace.Run (Undisturbed Kernel.priorities) (.scheduling k) window last →
      (∀ p, k.Runnable p → ¬ k.MinimalPriority p → p ∉ dispatches window) ∧
      ∀ p q, 1 ≤ p → p ≤ 4 → 1 ≤ q → q ≤ 4 → k.MinimalPriority p → k.MinimalPriority q →
        (dispatches window).count p ≤ (dispatches window).count q + 1 := by
  have tested : boot.schedulingAlgorithm ≠ 1 := by rw [algorithm]; decide
  obtain ⟨table, same⟩ := runs_wellFormed tested run
  have fit : k.PrioritiesFit := runs_prioritiesFit tested run
  have here : SamePriorities k (.scheduling k) :=
    ⟨table, same.trans algorithm, fun _ => Iff.rfl, rfl⟩
  refine ⟨Kernel.schedules_priority_ends table.1 here.algorithm fit,
    fun k' picked => here.dispatch fit picked, fun window last during => ?_⟩
  have throughout := during.always (SamePriorities k) here fun _ _ _ same step => same.step step
  have steps := during.along (SamePriorities k) here throughout
  have machine : ∀ a l b, Undisturbed Kernel.priorities a l b ∧ SamePriorities k a →
      Step Kernel.Schedules a l b := fun _ _ _ step => step.1.1
  have hop : ∀ k1 l k', Undisturbed Kernel.priorities (.scheduling k1) l (.user k') ∧
      SamePriorities k (.scheduling k1) →
      IsNext nprocs k.MinimalPriority k1.current k'.current := by
    rintro k1 l k' ⟨⟨step, -, -⟩, same⟩
    cases step with
    | dispatch picked => exact same.dispatch fit picked
  constructor
  · intro p _ worse chosen
    have stops := dispatches_all steps machine fun k1 l k' step => (hop k1 l k' step).stop
    exact worse (stops p chosen)
  · intro p q _ pHigh _ qHigh pMinimal qMinimal
    have spares (r : Nat) (high : r ≤ 4) (minimal : k.MinimalPriority r) :
        Spares nprocs r k.current (dispatches window) :=
      walk_spares steps machine fun k1 l k' step =>
        ⟨(hop k1 l k' step).bound, (hop k1 l k' step).first r (Nat.lt_succ_of_le high) minimal⟩
    exact turns_balanced (Nat.lt_succ_of_le pHigh) (Nat.lt_succ_of_le qHigh) table.1.current.2 _
      (spares p pHigh pMinimal) (spares q qHigh qMinimal)

private def afterYielding : Kernel :=
  (interrupt (trap 48 0) (interrupt (trap 50 0x7fffffff) (bareBoot 2).kernel).kernel).kernel

theorem priority_schedule_yield : ∃ k', afterYielding.Schedules k' ∧
    IsNext nprocs afterYielding.MinimalPriority 1 k'.current := by
  have run : Runs (bareBoot 2)
      [(.interrupt 1 (trap 50 0x7fffffff),
          .user (interrupt (trap 50 0x7fffffff) (bareBoot 2).kernel).kernel),
        (.interrupt 1 (trap 48 0), .scheduling afterYielding)] (.scheduling afterYielding) :=
    .cons (.interrupt _ (trap 50 0x7fffffff)) <| .cons (.interrupt _ (trap 48 0)) <| .nil _
  obtain ⟨ends, next, -⟩ := priority_schedule (bareBoot 2) rfl _ _ run
  obtain ⟨k', picked⟩ := ends.mpr ⟨2, by decide, by decide, rfl⟩
  exact ⟨k', picked, next k' picked⟩

end SchedOS
