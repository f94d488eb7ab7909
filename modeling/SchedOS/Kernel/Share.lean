import SchedOS.Kernel.Walk
import SchedOS.Shared.Wheel

set_option autoImplicit false

namespace SchedOS

open Wheel

namespace Kernel

variable {k k' : Kernel}

def shares (k : Kernel) (pid : Nat) : Int := (k.procArray pid).pShare

def weight (k : Kernel) (pid : Nat) : Nat :=
  if k.Runnable pid then (max (k.shares pid) 0).toNat else 0

def totalShare (k : Kernel) : Nat := mark k.weight nprocs

def CountedAt (k : Kernel) (times : Nat → Int) (pid : Nat) : Prop :=
  ∀ other, other < nprocs → k.Runnable other → 0 ≤ times other ∧ (other ≠ pid → times other = 0)

def Counted (k : Kernel) : Prop := k.CountedAt k.times k.current

def slotAt (k : Kernel) (times : Nat → Int) (pid : Nat) : Nat :=
  mark k.weight pid + min (times pid).toNat (k.weight pid)

def slot (k : Kernel) : Nat := k.slotAt k.times k.current

section Pass

variable {times : Nat → Int} {rngs : Rngs} {pid : Nat}

theorem share_skip (waits : ¬ k.Runnable pid) :
    sharePass (k.retimed times rngs, pid) = .again (k.retimed times rngs, (pid + 1) % nprocs) :=
  if_neg waits

theorem share_spent (runnable : k.Runnable pid) (spent : k.shares pid ≤ times pid) :
    sharePass (k.retimed times rngs, pid) =
      .again (k.retimed (Function.update times pid 0) rngs, (pid + 1) % nprocs) := by
  rw [← setTimePassed_retimed]
  exact (if_pos runnable).trans (if_pos spent)

theorem share_runs (runnable : k.Runnable pid) (left : times pid < k.shares pid) :
    sharePass (k.retimed times rngs, pid) =
      .leave ((k.retimed (Function.update times pid (times pid + 1)) rngs).run pid) := by
  rw [← setTimePassed_retimed]
  exact (if_pos runnable).trans (if_neg (not_le.mpr left))

theorem sharePass_cases (k : Kernel) (times : Nat → Int) (rngs : Rngs) (pid : Nat) :
    (¬ k.Runnable pid ∧
      sharePass (k.retimed times rngs, pid) = .again (k.retimed times rngs, (pid + 1) % nprocs)) ∨
    (k.Runnable pid ∧ k.shares pid ≤ times pid ∧ sharePass (k.retimed times rngs, pid) =
      .again (k.retimed (Function.update times pid 0) rngs, (pid + 1) % nprocs)) ∨
    (k.Runnable pid ∧ times pid < k.shares pid ∧ sharePass (k.retimed times rngs, pid) =
      .leave ((k.retimed (Function.update times pid (times pid + 1)) rngs).run pid)) := by
  by_cases runnable : k.Runnable pid
  · rcases le_or_gt (k.shares pid) (times pid) with spent | left
    · exact .inr (.inl ⟨runnable, spent, share_spent runnable spent⟩)
    · exact .inr (.inr ⟨runnable, left, share_runs runnable left⟩)
  · exact .inl ⟨runnable, share_skip runnable⟩

theorem CountedAt.skip (counted : k.CountedAt times pid) (waits : ¬ k.Runnable pid) (next : Nat) :
    k.CountedAt times next := by
  intro other bound ready
  have away : other ≠ pid := fun same => waits (same ▸ ready)
  exact ⟨(counted other bound ready).1, fun _ => (counted other bound ready).2 away⟩

theorem CountedAt.reset (counted : k.CountedAt times pid) (next : Nat) :
    k.CountedAt (Function.update times pid 0) next := by
  intro other bound ready
  by_cases same : other = pid
  · subst same; simp
  · rw [Function.update_of_ne same]
    exact ⟨(counted other bound ready).1, fun _ => (counted other bound ready).2 same⟩

-- Where every slot of `pid` is used up the scan may as well stand at its successor.
theorem slot_moves (bound : pid < nprocs)
    (used : k.slotAt times pid = mark k.weight (pid + 1)) {later : Nat → Int}
    (fresh : k.Runnable ((pid + 1) % nprocs) → later ((pid + 1) % nprocs) = 0) :
    k.slotAt later ((pid + 1) % nprocs) ≡ k.slotAt times pid [MOD k.totalShare] := by
  have first : k.slotAt later ((pid + 1) % nprocs) = mark k.weight ((pid + 1) % nprocs) := by
    unfold slotAt
    by_cases ready : k.Runnable ((pid + 1) % nprocs)
    · simp [fresh ready]
    · simp [weight, ready]
  rw [first, used]
  rcases Nat.lt_or_ge (pid + 1) nprocs with inside | outside
  · rw [Nat.mod_eq_of_lt inside]
  · have last : pid + 1 = nprocs := by omega
    rw [last, Nat.mod_self, mark_zero]
    exact (Nat.modEq_zero_iff_dvd.mpr dvd_rfl).symm

theorem slotAt_skip (waits : ¬ k.Runnable pid) :
    k.slotAt times pid = mark k.weight (pid + 1) := by
  simp [slotAt, weight, waits]

theorem slotAt_spent (runnable : k.Runnable pid) (counter : 0 ≤ times pid)
    (spent : k.shares pid ≤ times pid) : k.slotAt times pid = mark k.weight (pid + 1) := by
  rw [mark_succ, slotAt, weight, if_pos runnable]
  omega

theorem slotAt_left (runnable : k.Runnable pid) (counter : 0 ≤ times pid)
    (left : times pid < k.shares pid) : Owns k.weight (k.slotAt times pid) pid ∧
      k.slotAt (Function.update times pid (times pid + 1)) pid = k.slotAt times pid + 1 := by
  simp only [Owns, mark_succ, slotAt, weight, if_pos runnable, Function.update_self]
  omega

end Pass

structure Scanning (k : Kernel) (times : Nat → Int) (pid : Nat) : Prop where
  bound : pid < nprocs
  counted : k.CountedAt times pid
  slot : k.slotAt times pid ≡ k.slot [MOD k.totalShare]

/-- What a call of `schedule()` in `k` does under algorithm 3. -/
structure Turned (k k' : Kernel) : Prop where
  owner : Owns k.weight (k.slot % k.totalShare) k'.current
  slot : k'.slot ≡ k.slot + 1 [MOD k.totalShare]
  counted : k'.Counted

section Scanning

variable {times : Nat → Int} {pid : Nat} {rngs : Rngs}

theorem Scanning.skip (scanning : k.Scanning times pid) (waits : ¬ k.Runnable pid) :
    k.Scanning times ((pid + 1) % nprocs) := by
  have wrapped : (pid + 1) % nprocs < nprocs := Nat.mod_lt _ (by decide)
  refine ⟨wrapped, scanning.counted.skip waits _, ?_⟩
  apply (slot_moves scanning.bound (slotAt_skip waits) fun ready => ?_).trans scanning.slot
  have away : (pid + 1) % nprocs ≠ pid := fun same => waits (same ▸ ready)
  exact (scanning.counted _ wrapped ready).2 away

theorem Scanning.spend (scanning : k.Scanning times pid) (runnable : k.Runnable pid)
    (spent : k.shares pid ≤ times pid) :
    k.Scanning (Function.update times pid 0) ((pid + 1) % nprocs) := by
  have wrapped : (pid + 1) % nprocs < nprocs := Nat.mod_lt _ (by decide)
  have counter := (scanning.counted pid scanning.bound runnable).1
  refine ⟨wrapped, scanning.counted.reset _, ?_⟩
  apply (slot_moves scanning.bound (slotAt_spent runnable counter spent) fun ready => ?_).trans
    scanning.slot
  by_cases same : (pid + 1) % nprocs = pid
  · rw [same, Function.update_self]
  · rw [Function.update_of_ne same]
    exact (scanning.counted _ wrapped ready).2 same

theorem Scanning.leave (scanning : k.Scanning times pid) (runnable : k.Runnable pid)
    (left : times pid < k.shares pid) :
    k.Turned ((k.retimed (Function.update times pid (times pid + 1)) rngs).run pid) := by
  have counter := (scanning.counted pid scanning.bound runnable).1
  obtain ⟨owner, moved⟩ := slotAt_left runnable counter left
  have inside : k.slotAt times pid < k.totalShare :=
    owner.2.trans_le (mark_mono _ scanning.bound)
  have stands : k.slot % k.totalShare = k.slotAt times pid := by
    rw [← scanning.slot, Nat.mod_eq_of_lt inside]
  refine ⟨?_, ?_, ?_⟩
  · rw [stands]
    exact owner
  · have next : k.slotAt (Function.update times pid (times pid + 1)) pid ≡ k.slot + 1
        [MOD k.totalShare] := moved ▸ scanning.slot.add_right 1
    exact next
  · intro other bound ready
    show 0 ≤ Function.update times pid (times pid + 1) other ∧ (other ≠ pid → _)
    by_cases same : other = pid
    · subst same
      exact ⟨by rw [Function.update_self]; omega, fun away => absurd rfl away⟩
    · have before := scanning.counted other bound ready
      exact ⟨by rw [Function.update_of_ne same]; exact before.1,
        fun _ => (Function.update_of_ne same _ _).trans (before.2 same)⟩

end Scanning

theorem share_turned (table : k.WellFormed) (counted : k.Counted)
    (ended : Loop.Leaves sharePass (k, k.current) k') : k.Turned k' := by
  let scanned := fun s : Kernel × Nat =>
    ∃ times, s.1 = k.retimed times k.rngs ∧ k.Scanning times s.2
  refine ended.post scanned k.Turned ⟨k.times, rfl, table.current.2, counted, rfl⟩ ?_ ?_
  · rintro ⟨_, pid⟩ next ⟨times, rfl, scanning⟩ pass
    rcases sharePass_cases k times k.rngs pid with
      ⟨waits, skip⟩ | ⟨runnable, spent, reset⟩ | ⟨runnable, left, leave⟩
    · rw [skip] at pass; cases pass
      exact ⟨_, rfl, scanning.skip waits⟩
    · rw [reset] at pass; cases pass
      exact ⟨_, rfl, scanning.spend runnable spent⟩
    · rw [leave] at pass; cases pass
  · rintro ⟨_, pid⟩ final ⟨times, rfl, scanning⟩ pass
    rcases sharePass_cases k times k.rngs pid with
      ⟨waits, skip⟩ | ⟨runnable, spent, reset⟩ | ⟨runnable, left, leave⟩
    · rw [skip] at pass; cases pass
    · rw [reset] at pass; cases pass
    · rw [leave] at pass; cases pass
      exact scanning.leave runnable left

theorem schedules_share (table : k.WellFormed) (algorithm : k.schedulingAlgorithm = 3) :
    k.Schedules k' ↔ Loop.Leaves sharePass (k, k.current) k' := by
  simp only [Schedules, schedule, algorithm, table.pid]
  rfl

def SomeShare (k : Kernel) : Prop := ∃ pid, 1 ≤ pid ∧ pid ≤ 4 ∧ k.Runnable pid ∧ 1 ≤ k.shares pid

def away (k : Kernel) (target : Nat) (s : Kernel × Nat) : Nat :=
  (target + nprocs - s.2) % nprocs + if k.shares target ≤ s.1.times target then nprocs else 0

theorem away_next {times later : Nat → Int} {target pid : Nat} (bound : pid < nprocs)
    (inside : target < nprocs) (other : pid ≠ target) (same : later target = times target)
    (rngs : Rngs) :
    k.away target (k.retimed later rngs, (pid + 1) % nprocs) <
      k.away target (k.retimed times rngs, pid) := by
  have nearer : (target + nprocs - (pid + 1) % nprocs) % nprocs <
      (target + nprocs - pid) % nprocs := by
    simp only [nprocs] at *
    omega
  have kept : (k.retimed later rngs).times target = (k.retimed times rngs).times target := same
  simp only [away, kept]
  omega

theorem share_ends (table : k.WellFormed) (shared : k.SomeShare) :
    ∃ k', Loop.Leaves sharePass (k, k.current) k' := by
  obtain ⟨target, -, high, runnable, share⟩ := shared
  have inside : target < nprocs := Nat.lt_succ_of_le high
  let scanned := fun s : Kernel × Nat => ∃ times, s.1 = k.retimed times k.rngs ∧ s.2 < nprocs
  have ends : ∃ k', Loop.run sharePass (2 * nprocs) (k, k.current) = some k' := by
    apply Loop.ends_within sharePass scanned (k.away target) ?_ ⟨k.times, rfl, table.current.2⟩ ?_
    · rintro ⟨_, pid⟩ next ⟨times, rfl, bound⟩ pass
      have wrapped : (pid + 1) % nprocs < nprocs := Nat.mod_lt _ (by decide)
      rcases sharePass_cases k times k.rngs pid with
        ⟨waits, skip⟩ | ⟨ready, spent, reset⟩ | ⟨ready, left, leave⟩
      · rw [skip] at pass; cases pass
        have other : pid ≠ target := fun same => waits (same ▸ runnable)
        exact ⟨⟨_, rfl, wrapped⟩, away_next bound inside other rfl _⟩
      · rw [reset] at pass; cases pass
        refine ⟨⟨_, rfl, wrapped⟩, ?_⟩
        by_cases same : pid = target
        · -- From the reset on, the target is one full round away and has shares left.
          subst same
          have fresh : (k.retimed (Function.update times pid 0) k.rngs).times pid = 0 :=
            Function.update_self ..
          have used : k.shares pid ≤ (k.retimed times k.rngs).times pid := spent
          have near : (pid + nprocs - (pid + 1) % nprocs) % nprocs < nprocs :=
            Nat.mod_lt _ (by decide)
          simp only [away, fresh, if_neg (show ¬ k.shares pid ≤ 0 by omega), if_pos used]
          omega
        · exact away_next bound inside same (Function.update_of_ne (Ne.symm same) _ _) _
      · rw [leave] at pass; cases pass
    · have near : (target + nprocs - k.current) % nprocs < nprocs := Nat.mod_lt _ (by decide)
      simp only [away]
      split_ifs <;> omega
  obtain ⟨k', ended⟩ := ends
  exact ⟨k', _, ended⟩

theorem share_spins (counted : k.Counted) (table : k.WellFormed) (none : ¬ k.SomeShare) :
    ¬ Loop.Leaves sharePass (k, k.current) k' := by
  let spun := fun s : Kernel × Nat => s.2 < nprocs ∧ ∃ times, s.1 = k.retimed times k.rngs ∧
    ∀ pid, pid < nprocs → k.Runnable pid → 0 ≤ times pid
  apply Loop.never_leaves spun ?_ ⟨table.current.2, k.times, rfl, fun pid bound ready =>
    (counted pid bound ready).1⟩
  rintro ⟨_, pid⟩ ⟨bound, times, rfl, counters⟩
  have wrapped : (pid + 1) % nprocs < nprocs := Nat.mod_lt _ (by decide)
  rcases sharePass_cases k times k.rngs pid with
    ⟨waits, skip⟩ | ⟨ready, spent, reset⟩ | ⟨ready, left, leave⟩
  · exact ⟨_, skip, wrapped, times, rfl, counters⟩
  · refine ⟨_, reset, wrapped, _, rfl, fun other otherBound otherReady => ?_⟩
    by_cases same : other = pid
    · rw [same, Function.update_self]
    · rw [Function.update_of_ne same]
      exact counters other otherBound otherReady
  · have counter := counters pid bound ready
    exact absurd ⟨pid, table.positive ready, Nat.le_of_lt_succ bound, ready, by omega⟩ none

theorem schedules_share_ends (counted : k.Counted) (table : k.WellFormed)
    (algorithm : k.schedulingAlgorithm = 3) : (∃ k', k.Schedules k') ↔ k.SomeShare := by
  simp only [schedules_share table algorithm]
  constructor
  · rintro ⟨k', ended⟩
    by_contra none
    exact share_spins counted table none ended
  · exact share_ends table

theorem totalShare_positive (table : k.WellFormed) : 1 ≤ k.totalShare ↔ k.SomeShare := by
  have sum : 1 ≤ k.totalShare ↔ ∃ pid, pid < nprocs ∧ k.weight pid ≠ 0 := by
    rw [Nat.one_le_iff_ne_zero, totalShare, mark, Ne, Finset.sum_eq_zero_iff]
    simp
  rw [sum]
  constructor
  · rintro ⟨pid, bound, weighs⟩
    unfold weight at weighs
    split at weighs
    · next ready =>
        exact ⟨pid, table.positive ready, Nat.le_of_lt_succ bound, ready, by omega⟩
    · exact absurd rfl weighs
  · rintro ⟨pid, -, high, ready, share⟩
    refine ⟨pid, Nat.lt_succ_of_le high, ?_⟩
    rw [weight, if_pos ready]
    omega

end Kernel

structure ShareState (m : Machine) : Prop where
  table : m.WellFormed
  algorithm : m.kernel.schedulingAlgorithm = 3
  counted : m.kernel.Counted

theorem start_shareState {boot : Boot} (algorithm : boot.schedulingAlgorithm = 3) :
    ShareState (start boot) := by
  refine ⟨start_wellFormed boot, algorithm, fun pid bound ready => ?_⟩
  have positive := (start_wellFormed boot).1.positive ready
  have zero : (start boot).kernel.times pid = 0 :=
    congrArg Process.pTimePassed (boot.kernel_proc positive bound)
  simp [zero]

theorem interrupt_times (reg : Registers) (k : Kernel) :
    (interrupt reg k).kernel.times = k.times := by
  funext pid
  unfold Kernel.times
  by_cases same : pid = k.current
  · rw [same, interrupt_proc_current, served_time]
  · rw [interrupt_proc_other _ _ same]

theorem interrupt_counted {reg : Registers} {k : Kernel} (counted : k.Counted) :
    (interrupt reg k).kernel.Counted := by
  intro pid bound ready
  rw [interrupt_times, interrupt_current]
  apply counted pid bound
  have step : Step Kernel.Schedules (.user k) (.interrupt k.current reg) (interrupt reg k) :=
    .interrupt k reg
  exact step_runnable (by rintro k' ⟨⟩) step ready

theorem ShareState.step {m m' : Machine} {label : Label} (before : ShareState m)
    (step : Step Kernel.Schedules m label m') : ShareState m' := by
  obtain ⟨table, algorithm⟩ := step_kept (by decide) before.table before.algorithm step
  refine ⟨table, algorithm, ?_⟩
  cases step with
  | interrupt k reg => exact interrupt_counted before.counted
  | dispatch picked =>
      have ended := (Kernel.schedules_share before.table.1 before.algorithm).mp picked
      exact (Kernel.share_turned before.table.1 before.counted ended).counted
  | store => exact before.counted

theorem runs_shareState {boot : Boot} (algorithm : boot.schedulingAlgorithm = 3)
    {trace : List (Label × Machine)} {last : Machine} (run : Runs boot trace last) :
    ShareState last :=
  run.invariant ShareState (start_shareState algorithm) fun _ _ _ before step => before.step step

theorem undisturbed_weight {m m' : Machine} {label : Label} (before : ShareState m)
    (step : Undisturbed Kernel.shares m label m') : m'.kernel.weight = m.kernel.weight := by
  have tested : m.kernel.schedulingAlgorithm ≠ 1 := by rw [before.algorithm]; decide
  funext pid
  have ready := step.runnable before.table tested pid
  simp only [Kernel.weight, step.2.2, ready]

theorem undisturbed_slot {m m' : Machine} {label : Label} (before : ShareState m)
    (step : Undisturbed Kernel.shares m label m') (other : label.dispatched = none) :
    m'.kernel.slot = m.kernel.slot := by
  have weight := undisturbed_weight before step
  have times : m'.kernel.times = m.kernel.times := by
    obtain ⟨step, -, -⟩ := step
    cases step with
    | interrupt k reg => exact interrupt_times reg k
    | dispatch => cases other
    | store => rfl
  simp only [Kernel.slot, Kernel.slotAt, weight, times, step_current step.1 other]

theorem window_follows {m last : Machine} {window : List (Label × Machine)}
    (during : Trace.Run (Undisturbed Kernel.shares) m window last) (before : ShareState m) :
    ∀ slot, m.kernel.slot ≡ slot [MOD m.kernel.totalShare] →
      Follows m.kernel.weight m.kernel.totalShare slot (dispatches window) := by
  -- The wheel is known up to whole turns only, so the slot varies over its residue class.
  induction during with
  | nil => exact fun _ _ => trivial
  | @cons m next last label rest first tail ih =>
      intro slot stands
      have weight := undisturbed_weight before first
      have later := ih (before.step first.1)
      simp only [Kernel.totalShare, weight] at later
      rw [dispatches_cons]
      cases called : label.dispatched with
      | none =>
          apply later slot
          rw [undisturbed_slot before first called]
          exact stands
      | some pid =>
          obtain ⟨step, -, -⟩ := first
          cases step with
          | interrupt | store => cases called
          | dispatch picked =>
              cases called
              have ended := (Kernel.schedules_share before.table.1 before.algorithm).mp picked
              have turned := Kernel.share_turned before.table.1 before.counted ended
              refine ⟨?_, later (slot + 1) (turned.slot.trans (stands.add_right 1))⟩
              rw [← stands]
              exact turned.owner

def Label.Calm : Label → Prop
  | .interrupt _ reg => reg.service ≠ .exit ∧ reg.service ≠ .user2
  | _ => True

theorem calm_undisturbed {m last : Machine} {window : List (Label × Machine)}
    (run : Trace.Run (Step Kernel.Schedules) m window last) (before : ShareState m)
    (calm : ∀ x ∈ window, x.1.Calm) : Trace.Run (Undisturbed Kernel.shares) m window last := by
  induction run with
  | nil => exact .nil _
  | @cons m next last label rest first tail ih =>
      obtain ⟨here, later⟩ := List.forall_mem_cons.mp calm
      refine .cons ⟨first, ?_, ?_⟩ (ih (before.step first) later)
      · cases label with
        | interrupt caller reg => exact here.1
        | dispatch | store => exact id
      · cases first with
        | interrupt k reg =>
            funext pid
            exact (interrupt_share reg k pid).trans (if_neg fun both => here.2 both.2)
        | dispatch picked =>
            have tested := before.algorithm ▸ (by decide : (3 : Int) ≠ 1)
            obtain ⟨pid, -, -, times, rngs, rfl⟩ :=
              Kernel.schedules_picks before.table.1 tested picked
            rfl
        | store => rfl

theorem proportional_share (boot : Boot) (algorithm : boot.schedulingAlgorithm = 3)
    (trace : List (Label × Machine)) (k : Kernel) (run : Runs boot trace (.scheduling k))
    (shared : 1 ≤ k.totalShare) :
    (∃ k', k.Schedules k') ∧
    ∀ rounds window last, Trace.Run (Undisturbed Kernel.shares) (.scheduling k) window last →
      (dispatches window).length = rounds * k.totalShare →
      ∀ p, 1 ≤ p → p ≤ 4 → k.Runnable p →
        (dispatches window).count p = rounds * (max (k.shares p) 0).toNat := by
  have here := runs_shareState algorithm run
  constructor
  · apply (Kernel.schedules_share_ends here.counted here.table.1 here.algorithm).mpr
    exact (Kernel.totalShare_positive here.table.1).mp shared
  · intro rounds window last during length p _ high ready
    have follows := window_follows during here k.slot rfl
    have weight : k.weight p = (max (k.shares p) 0).toNat := if_pos ready
    rw [follows.exact rfl (Nat.lt_succ_of_le high) length, ← weight]
    rfl

private def yielded (k : Kernel) : Kernel := (interrupt (trap 48 0) k).kernel

private def turn (k : Kernel) : Kernel := (k.schedule 3).getD k

private theorem yield_step (k : Kernel) : Step Kernel.Schedules (.user k)
    (.interrupt k.current (trap 48 0)) (.scheduling (yielded k)) :=
  step_schedules k (by decide)

private theorem turn_step (k : Kernel) (ends : (k.schedule 3).isSome) :
    Step Kernel.Schedules (.scheduling k) (.dispatch (turn k).current) (.user (turn k)) := by
  obtain ⟨k', ended⟩ := Option.isSome_iff_exists.mp ends
  have picked : k.Schedules (turn k) := ⟨3, by rw [turn, ended]; rfl⟩
  exact Step.dispatch picked

private def yields : Nat → Kernel
  | 0 => yielded (bareBoot 3).kernel
  | n + 1 => yielded (turn (yields n))

theorem proportional_share_yields : ∃ window last,
    Trace.Run (Undisturbed Kernel.shares) (.scheduling (yields 0)) window last ∧
      (dispatches window).length = 4 ∧ (dispatches window).count 3 = 1 := by
  have start : Runs (bareBoot 3) [(.interrupt 1 (trap 48 0), .scheduling (yields 0))]
      (.scheduling (yields 0)) := .cons (yield_step _) (.nil _)
  have run : Trace.Run (Step Kernel.Schedules) (.scheduling (yields 0))
      [(.dispatch 1, .user (turn (yields 0))), (.interrupt 1 (trap 48 0), .scheduling (yields 1)),
        (.dispatch 2, .user (turn (yields 1))), (.interrupt 2 (trap 48 0), .scheduling (yields 2)),
        (.dispatch 3, .user (turn (yields 2))), (.interrupt 3 (trap 48 0), .scheduling (yields 3)),
        (.dispatch 4, .user (turn (yields 3)))] (.user (turn (yields 3))) :=
    .cons (turn_step _ rfl) <| .cons (yield_step _) <| .cons (turn_step _ rfl) <|
      .cons (yield_step _) <| .cons (turn_step _ rfl) <| .cons (yield_step _) <|
      .cons (turn_step _ rfl) <| .nil _
  have window := calm_undisturbed run (runs_shareState rfl start) (by simp [Label.Calm]; decide)
  have total : (yields 0).totalShare = 4 := rfl
  exact ⟨_, _, window, rfl, (proportional_share (bareBoot 3) rfl _ _ start
    (by rw [total]; decide)).2 1 _ _ window total.symm 3 (by decide) (by decide) rfl⟩

theorem share_conserves_work (boot : Boot) (algorithm : boot.schedulingAlgorithm = 3)
    (trace : List (Label × Machine)) (last : Machine) (run : Runs boot trace last) :
    ∀ x ∈ trace, ∀ k, x.2 = .scheduling k →
      (k.WorkConserving ↔ (k.SomeRunnable → k.SomeShare)) := by
  intro x member k entered
  have here := run.always ShareState (start_shareState algorithm)
    (fun _ _ _ before step => before.step step) x member
  rw [entered] at here
  have table : k.WellFormed := here.table.1
  have same : k.schedulingAlgorithm = 3 := here.algorithm
  have ends : (∃ k', k.Schedules k') ↔ k.SomeShare :=
    Kernel.schedules_share_ends here.counted table same
  rw [Kernel.workConserving_iff table (by rw [same]; decide), ends]

theorem share_conserves_work_yield : (yields 0).WorkConserving := by
  have run : Runs (bareBoot 3) [(.interrupt 1 (trap 48 0), .scheduling (yields 0))]
      (.scheduling (yields 0)) := .cons (yield_step _) (.nil _)
  exact (share_conserves_work (bareBoot 3) rfl _ _ run _ (List.mem_singleton.mpr rfl) _ rfl).mpr
    fun _ => ⟨1, by decide, by decide, rfl, by decide⟩

private def sharesDropped : Nat → Kernel
  | 0 => yielded (interrupt (trap 51 0) (bareBoot 3).kernel).kernel
  | n + 1 => yielded (interrupt (trap 51 0) (turn (sharesDropped n))).kernel

private theorem drop_step (k : Kernel) : Step Kernel.Schedules (.user k)
    (.interrupt k.current (trap 51 0)) (.user (interrupt (trap 51 0) k).kernel) :=
  step_returns k (by decide)

theorem share_conserves_work_fails : ¬ ∀ boot : Boot, boot.schedulingAlgorithm = 3 →
    ∀ trace last, Runs boot trace last →
      ∀ x ∈ trace, ∀ k, x.2 = .scheduling k → k.WorkConserving := by
  intro conserves
  have run : Runs (bareBoot 3)
      [(.interrupt 1 (trap 51 0), .user (interrupt (trap 51 0) (bareBoot 3).kernel).kernel),
        (.interrupt 1 (trap 48 0), .scheduling (sharesDropped 0)),
        (.dispatch 2, .user (turn (sharesDropped 0))),
        (.interrupt 2 (trap 51 0), .user (interrupt (trap 51 0) (turn (sharesDropped 0))).kernel),
        (.interrupt 2 (trap 48 0), .scheduling (sharesDropped 1)),
        (.dispatch 3, .user (turn (sharesDropped 1))),
        (.interrupt 3 (trap 51 0), .user (interrupt (trap 51 0) (turn (sharesDropped 1))).kernel),
        (.interrupt 3 (trap 48 0), .scheduling (sharesDropped 2)),
        (.dispatch 4, .user (turn (sharesDropped 2))),
        (.interrupt 4 (trap 51 0), .user (interrupt (trap 51 0) (turn (sharesDropped 2))).kernel),
        (.interrupt 4 (trap 48 0), .scheduling (sharesDropped 3))]
      (.scheduling (sharesDropped 3)) :=
    .cons (drop_step _) <| .cons (yield_step _) <| .cons (turn_step _ rfl) <|
      .cons (drop_step _) <| .cons (yield_step _) <| .cons (turn_step _ rfl) <|
      .cons (drop_step _) <| .cons (yield_step _) <| .cons (turn_step _ rfl) <|
      .cons (drop_step _) <| .cons (yield_step _) <| .nil _
  have conserving := conserves (bareBoot 3) rfl _ _ run _ (List.mem_of_getLast? rfl) _ rfl
  have here := runs_shareState rfl run
  obtain ⟨pid, low, high, -, share⟩ :=
    (Kernel.schedules_share_ends here.counted here.table.1 here.algorithm).mp
      (conserving.ends ⟨1, by decide, by decide, rfl⟩)
  have none : (sharesDropped 3).shares pid = 0 := by interval_cases pid <;> rfl
  exact absurd (none ▸ share) (by decide)

end SchedOS
