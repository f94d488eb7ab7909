import Mathlib.Data.List.DropRight
import SchedOS.Kernel.Share

set_option autoImplicit false

namespace SchedOS

open Wheel

def quanta (trace : List (Label × Machine)) : List Nat := 1 :: dispatches trace

def streak (pid : Nat) (turns : List Nat) : Nat := (turns.rtakeWhile (· = pid)).length

structure InForce (trace : List (Label × Machine)) (shares : Nat → Int) : Prop where
  kept : ∀ before x after, trace = before ++ x :: after →
    (∃ y ∈ before ++ [x], ∃ k, y.2 = .scheduling k) →
    ∀ pid, 1 ≤ pid → pid ≤ 4 → x.2.kernel.shares pid = shares pid
  positive : ∀ pid, 1 ≤ pid → pid ≤ 4 → 1 ≤ shares pid

def WithinShares (trace : List (Label × Machine)) : Prop :=
  ∀ before pid m after, trace = before ++ (.dispatch pid, m) :: after →
    (∃ other, other ≠ pid ∧ 1 ≤ other ∧ other ≤ 4 ∧ m.kernel.Runnable other) →
    (streak pid (quanta (before ++ [(.dispatch pid, m)])) : Int) ≤ m.kernel.shares pid

def ExitBefore (trace : List (Label × Machine)) (limit : Int) : Prop :=
  ∀ before pid m after, trace = before ++ (.dispatch pid, m) :: after →
    ((dispatches before).length + 1 : Int) = limit → ∃ x ∈ before, x.1.isExit

theorem streak_split (pid : Nat) (turns : List Nat) :
    ∃ earlier, turns = earlier ++ List.replicate (streak pid turns) pid := by
  refine ⟨turns.rdropWhile (· = pid), ?_⟩
  have last : turns.rtakeWhile (· = pid) = List.replicate (streak pid turns) pid :=
    List.eq_replicate_iff.mpr ⟨rfl, fun d member => by simpa using List.mem_rtakeWhile_imp member⟩
  rw [← last, List.rdropWhile_append_rtakeWhile]

theorem streak_replicate (pid length : Nat) : streak pid (List.replicate length pid) = length := by
  have all : (List.replicate length pid).rtakeWhile (· = pid) = List.replicate length pid :=
    List.rtakeWhile_eq_self_iff.mpr fun d member => by simpa using List.eq_of_mem_replicate member
  rw [streak, all, List.length_replicate]

theorem dispatches_split {trace : List (Label × Machine)} {earlier later : List Nat} {pid : Nat}
    (split : dispatches trace = earlier ++ pid :: later) :
    ∃ before m after, trace = before ++ (.dispatch pid, m) :: after ∧
      dispatches before = earlier ∧ dispatches after = later := by
  induction trace generalizing earlier with
  | nil => simp at split
  | cons head rest ih =>
      obtain ⟨label, m⟩ := head
      rw [dispatches_cons] at split
      cases label with
      | dispatch first =>
          have split : first :: dispatches rest = earlier ++ pid :: later := split
          cases earlier with
          | nil =>
              obtain ⟨rfl, same⟩ := List.cons.inj split
              exact ⟨[], m, rest, rfl, rfl, same⟩
          | cons d earlier =>
              obtain ⟨rfl, shorter⟩ := List.cons.inj split
              obtain ⟨before, m', after, rfl, same, last⟩ := ih shorter
              exact ⟨_ :: before, m', after, rfl, by rw [dispatches_cons, same]; rfl, last⟩
      | interrupt | store =>
          obtain ⟨before, m', after, rfl, same, last⟩ := ih split
          exact ⟨_ :: before, m', after, rfl, by rw [dispatches_cons, same]; rfl, last⟩

theorem run_current {pid : Nat} {m last : Machine} {trace : List (Label × Machine)}
    (run : Trace.Run (Step Kernel.Schedules) m trace last) (current : m.kernel.current = pid)
    (only : ∀ d ∈ dispatches trace, d = pid) : ∀ x ∈ trace, x.2.kernel.current = pid := by
  induction run with
  | nil => simp
  | @cons m next last label rest first tail ih =>
      rw [dispatches_cons] at only
      have here : next.kernel.current = pid := by
        cases called : label.dispatched with
        | none => rw [step_current first called, current]
        | some chosen =>
            have same := only chosen (by simp [called])
            cases first with
            | interrupt | store => cases called
            | dispatch => cases called; exact same
      exact List.forall_mem_cons.mpr ⟨here, ih here fun d member =>
        only d (List.mem_append_right _ member)⟩

theorem run_stays {pid : Nat} {m last : Machine} {trace : List (Label × Machine)}
    (run : Trace.Run (Step Kernel.Schedules) m trace last) (state : ShareState m)
    (current : m.kernel.current = pid) (only : ∀ d ∈ dispatches trace, d = pid)
    (runnable : last.kernel.Runnable pid) : ∀ x ∈ trace, ¬ x.1.isExit := by
  rintro ⟨label, visited⟩ member exits
  have ready := ((tableSteps (by decide) run state.table state.algorithm).backward
    (fun m => m.kernel.Runnable pid) runnable fun _ _ _ step => step.runnable (by decide)).2 _
      member
  have here := run_current run current only _ member
  obtain ⟨before, after, -, reached⟩ := run.prefix_of_mem member
  obtain ⟨middle, -, step, -⟩ := reached.split_snoc
  cases step with
  | interrupt k reg =>
      have kind : reg.service = .exit := exits
      have same : k.current = pid := (interrupt_current reg k).symm.trans here
      have gone := interrupt_state reg k pid
      rw [if_pos ⟨same.symm, kind⟩] at gone
      exact absurd (ready.symm.trans gone) (by decide)
  | dispatch | store => exact exits

theorem run_runnable_iff {pid : Nat} {m last : Machine} {trace : List (Label × Machine)}
    (run : Trace.Run (Step Kernel.Schedules) m trace last) (state : ShareState m)
    (stay : ∀ x ∈ trace, ¬ x.1.isExit) : last.kernel.Runnable pid ↔ m.kernel.Runnable pid := by
  induction run with
  | nil => exact Iff.rfl
  | @cons m next last label rest first tail ih =>
      obtain ⟨here, later⟩ := List.forall_mem_cons.mp stay
      have tested : m.kernel.schedulingAlgorithm ≠ 1 := by rw [state.algorithm]; decide
      have picks (k' : Kernel) (_ : m = .scheduling m.kernel) (picked : m.kernel.Schedules k') :
          m.kernel.Picks k' := Kernel.schedules_picks state.table.1 tested picked
      rw [ih (state.step first) later, step_runnable_iff picks first here]

theorem step_shares {m m' : Machine} {label : Label} (state : ShareState m)
    (step : Step Kernel.Schedules m label m')
    (kept : ∀ pid, 1 ≤ pid → pid ≤ 4 → m'.kernel.shares pid = m.kernel.shares pid) :
    m'.kernel.shares = m.kernel.shares := by
  funext pid
  cases step with
  | interrupt k reg =>
      by_cases same : pid = k.current
      · have bound : 1 ≤ k.current ∧ k.current < nprocs := state.table.1.current
        exact kept pid (by omega) (by simp only [nprocs] at bound; omega)
      · exact (interrupt_share reg k pid).trans (if_neg fun both => same both.1)
  | dispatch picked =>
      have tested : (_ : Int) ≠ 1 := state.algorithm ▸ (by decide : (3 : Int) ≠ 1)
      obtain ⟨chosen, -, -, times, rngs, rfl⟩ :=
        Kernel.schedules_picks state.table.1 tested picked
      rfl
  | store => rfl

theorem undisturbed_run {m last : Machine} {window : List (Label × Machine)}
    (run : Trace.Run (Step Kernel.Schedules) m window last) (state : ShareState m)
    (stay : ∀ x ∈ window, ¬ x.1.isExit)
    (kept : ∀ x ∈ window, ∀ pid, 1 ≤ pid → pid ≤ 4 →
      x.2.kernel.shares pid = m.kernel.shares pid) :
    Trace.Run (Undisturbed Kernel.shares) m window last := by
  induction run with
  | nil => exact .nil _
  | @cons m next last label rest first tail ih =>
      obtain ⟨stayHere, stayLater⟩ := List.forall_mem_cons.mp stay
      obtain ⟨keptHere, keptLater⟩ := List.forall_mem_cons.mp kept
      have same := step_shares state first keptHere
      refine .cons ⟨first, stayHere, same⟩ (ih (state.step first) stayLater ?_)
      intro x member pid low high
      rw [same]
      exact keptLater x member pid low high

theorem first_schedule {k last : Kernel} {trace : List (Label × Machine)}
    (run : Trace.Run (Step Kernel.Schedules) (.user k) trace (.scheduling last)) :
    ∃ (early : List (Label × Machine)) (label : Label) (first : Kernel)
        (rest : List (Label × Machine)), trace = early ++ (label, .scheduling first) :: rest ∧
      dispatches (early ++ [(label, .scheduling first)]) = [] ∧ first.current = k.current ∧
      first.times = k.times := by
  generalize entered : Machine.user k = m at run
  generalize called : Machine.scheduling last = final at run
  induction run generalizing k with
  | nil => subst called; cases entered
  | @cons m next final label rest step tail ih =>
      subst entered
      cases step with
      | interrupt k reg =>
          have keptCurrent := interrupt_current reg k
          have keptTimes := interrupt_times reg k
          cases result : interrupt reg k with
          | user k' =>
              rw [result] at keptCurrent keptTimes
              obtain ⟨early, label, first, rest, rfl, none, current, times⟩ := ih result.symm called
              exact ⟨_ :: early, label, first, rest, rfl, none, current.trans keptCurrent,
                times.trans keptTimes⟩
          | scheduling k' =>
              rw [result] at keptCurrent keptTimes
              exact ⟨[], _, k', rest, rfl, rfl, keptCurrent, keptTimes⟩
          | halted k' =>
              rw [result] at tail
              cases tail with
              | nil => cases called
              | cons step => cases step
      | store k cursorpos lock cells =>
          obtain ⟨early, label, first, rest, rfl, none, current, times⟩ := ih rfl called
          exact ⟨_ :: early, label, first, rest, rfl, none, current, times⟩

theorem weight_lt_total {k : Kernel} {pid other : Nat} (bound : pid < nprocs)
    (otherBound : other < nprocs) (different : other ≠ pid) (runnable : k.Runnable other)
    (share : 1 ≤ k.shares other) : k.weight pid < k.totalShare := by
  have pair : ∑ i ∈ {other, pid}, k.weight i ≤ k.totalShare := by
    unfold Kernel.totalShare mark
    apply Finset.sum_le_sum_of_subset
    intro i member
    rw [Finset.mem_insert, Finset.mem_singleton] at member
    rw [Finset.mem_range]
    rcases member with rfl | rfl <;> assumption
  have positive : 1 ≤ k.weight other := by
    rw [Kernel.weight, if_pos runnable]
    omega
  rw [Finset.sum_pair different] at pair
  omega

section Boot

variable {boot : Boot} {trace : List (Label × Machine)} {last : Machine} {shares : Nat → Int}

theorem InForce.initial {rest : List (Label × Machine)} (force : InForce (trace ++ rest) shares) :
    InForce trace shares := by
  refine ⟨fun before x after split entered => ?_, force.positive⟩
  exact force.kept before x (after ++ rest) (by rw [split]; simp) entered

theorem InForce.after {before after : List (Label × Machine)} {k : Kernel} {label : Label}
    (force : InForce (before ++ [(label, .scheduling k)] ++ after) shares) {pid : Nat}
    (low : 1 ≤ pid) (high : pid ≤ 4) :
    k.shares pid = shares pid ∧ ∀ x ∈ after, x.2.kernel.shares pid = shares pid := by
  constructor
  · apply force.kept before (label, .scheduling k) after (by simp) _ pid low high
    exact ⟨(label, .scheduling k), by simp, k, rfl⟩
  · intro x member
    obtain ⟨left, right, rfl⟩ := List.append_of_mem member
    apply force.kept (before ++ (label, .scheduling k) :: left) x right (by simp) _ pid low high
    exact ⟨(label, .scheduling k), by simp, k, rfl⟩

theorem boot_slot {k : Kernel} (state : ShareState (.scheduling k)) (current : k.current = 1)
    (times : k.times = boot.kernel.times) (runnable : k.Runnable 1) :
    k.slot = 0 ∧ mark k.weight 1 = 0 ∧ mark k.weight 2 = (max (k.shares 1) 0).toNat := by
  have unused : ¬ k.Runnable 0 := fun ready => absurd (state.table.1.positive ready) (by decide)
  have first : mark k.weight 1 = 0 := by simp [Kernel.weight, unused]
  have second : mark k.weight 2 = (max (k.shares 1) 0).toNat := by
    rw [mark_succ, first, Kernel.weight, if_pos runnable, Nat.zero_add]
  have zero : k.times 1 = 0 := by
    rw [times]
    exact congrArg Process.pTimePassed (boot.kernel_proc (i := 1) (by decide) (by decide))
  refine ⟨?_, first, second⟩
  rw [Kernel.slot, Kernel.slotAt, current, first, zero]
  rfl

theorem dispatched_from {before after : List (Label × Machine)} {pid : Nat} {m : Machine}
    (run : Runs boot (before ++ (.dispatch pid, m) :: after) last) :
    ∃ (past : List (Label × Machine)) (label : Label) (k : Kernel),
      before = past ++ [(label, .scheduling k)] := by
  obtain ⟨middle, reached, next⟩ := run.split
  obtain ⟨k, rfl⟩ : ∃ k, middle = .scheduling k := by
    cases next with
    | cons step tail => cases step with | dispatch picked => exact ⟨_, rfl⟩
  have entered : before ≠ [] := by
    rintro rfl
    cases reached
  obtain ⟨past, label, rfl⟩ := reached.ends_with entered
  exact ⟨past, label, k, rfl⟩

theorem InForce.dispatched {before after : List (Label × Machine)} {pid : Nat} {m : Machine}
    (force : InForce (before ++ (.dispatch pid, m) :: after) shares)
    (run : Runs boot (before ++ (.dispatch pid, m) :: after) last) {p : Nat} (low : 1 ≤ p)
    (high : p ≤ 4) : m.kernel.shares p = shares p := by
  obtain ⟨past, label, k, rfl⟩ := dispatched_from run
  exact (force.after low high).2 _ (List.mem_cons_self)

theorem boot_window (run : Runs boot trace last) (some : dispatches trace ≠ []) :
    ∃ (early : List (Label × Machine)) (label : Label) (first : Kernel)
        (late : List (Label × Machine)), trace = (early ++ [(label, .scheduling first)]) ++ late ∧
      dispatches (early ++ [(label, .scheduling first)]) = [] ∧ first.current = 1 ∧
      first.times = boot.kernel.times := by
  obtain ⟨pid, later, split⟩ := List.exists_cons_of_ne_nil some
  obtain ⟨before, m, after, rfl, -, -⟩ := dispatches_split (show _ = [] ++ pid :: later from split)
  obtain ⟨past, entry, k, rfl⟩ := dispatched_from run
  obtain ⟨middle, reached, -⟩ := run.split
  obtain ⟨-, -, -, rfl⟩ := reached.split_snoc
  rw [start_user] at reached
  obtain ⟨early, label, first, rest, same, none, current, times⟩ := first_schedule reached
  exact ⟨early, label, first, rest ++ (.dispatch pid, m) :: after, by simp [same], none, current,
    times⟩

theorem boot_dispatches (algorithm : boot.schedulingAlgorithm = 3) (run : Runs boot trace last)
    (force : InForce trace shares) (stay : ∀ x ∈ trace, ¬ x.1.isExit)
    (few : ((dispatches trace).length : Int) ≤ shares 1) : ∀ d ∈ dispatches trace, d = 1 := by
  by_cases some : dispatches trace = []
  · simp [some]
  obtain ⟨early, label, first, late, rfl, none, current, times⟩ := boot_window run some
  obtain ⟨middle, entered, window⟩ := run.split
  obtain ⟨-, -, -, rfl⟩ := entered.split_snoc
  have state := runs_shareState algorithm entered
  have stayEarly (x : Label × Machine) (member : x ∈ early ++ [(label, .scheduling first)]) :
      ¬ x.1.isExit :=
    stay x (List.mem_append_left _ member)
  have runnable : first.Runnable 1 :=
    (run_runnable_iff entered (start_shareState algorithm) stayEarly).mpr
      (congrArg Process.pState (boot.kernel_proc (i := 1) (by decide) (by decide)))
  rw [dispatches_append, none, List.nil_append] at few ⊢
  have share (pid : Nat) (low : 1 ≤ pid) (high : pid ≤ 4) := force.after low high
  have during := undisturbed_run window state
    (fun x member => stay x (List.mem_append_right _ member)) fun x member pid low high =>
      ((share pid low high).2 x member).trans (share pid low high).1.symm
  obtain ⟨slot, low, high⟩ := boot_slot state current times runnable
  have follows := window_follows during state 0 (by rw [Machine.kernel, slot])
  have own : 0 + (dispatches late).length ≤ mark first.weight 2 := by
    rw [high, (share 1 (by decide) (by decide)).1]
    omega
  exact follows.within low.le own (mark_mono _ (by decide))

theorem streak_bound (algorithm : boot.schedulingAlgorithm = 3) (run : Runs boot trace last)
    (force : InForce trace shares) {earlier : List Nat} {pid length : Nat}
    (split : dispatches trace = earlier ++ List.replicate length pid)
    (runnable : last.kernel.Runnable pid)
    (shared : ∃ other, other ≠ pid ∧ 1 ≤ other ∧ other ≤ 4 ∧ last.kernel.Runnable other)
    (low : 1 ≤ pid) (high : pid ≤ 4) : (length : Int) ≤ shares pid := by
  rcases length with - | more
  · have := force.positive pid low high
    omega
  obtain ⟨before, m, after, rfl, -, rest⟩ := dispatches_split split
  obtain ⟨past, label, k, rfl⟩ := dispatched_from run
  obtain ⟨middle, reached, window⟩ := run.split
  obtain ⟨-, -, -, rfl⟩ := reached.split_snoc
  have state := runs_shareState algorithm reached
  have stay : ∀ x ∈ after, ¬ x.1.isExit := by
    cases window with
    | cons step tail =>
        have current : m.kernel.current = pid := by cases step with | dispatch => rfl
        exact run_stays tail (state.step step) current
          (fun d member => List.eq_of_mem_replicate (rest ▸ member)) runnable
  have share (p : Nat) (low : 1 ≤ p) (high : p ≤ 4) := force.after low high
  have during := undisturbed_run window state
    (List.forall_mem_cons.mpr ⟨id, stay⟩) fun x member p low high =>
      ((share p low high).2 x member).trans (share p low high).1.symm
  have follows := window_follows during state k.slot rfl
  have turns : dispatches ((.dispatch pid, m) :: after) = List.replicate (more + 1) pid := by
    rw [dispatches_cons, rest]
    rfl
  rw [turns] at follows
  obtain ⟨other, different, otherLow, otherHigh, otherReady⟩ := shared
  have ready {p : Nat} (after : last.kernel.Runnable p) : k.Runnable p :=
    ((tableSteps (by decide) window state.table state.algorithm).backward
      (fun m => m.kernel.Runnable p) after fun _ _ _ step => step.runnable (by decide)).1
  have wider := weight_lt_total (k := k) (Nat.lt_succ_of_le high) (Nat.lt_succ_of_le otherHigh)
    different (ready otherReady)
    ((share other otherLow otherHigh).1 ▸ force.positive other otherLow otherHigh)
  have bound := follows.streak rfl (Nat.lt_succ_of_le high) wider
  have weight : k.weight pid = (max (k.shares pid) 0).toNat := if_pos (ready runnable)
  rw [weight, (share pid low high).1] at bound
  have := force.positive pid low high
  omega

theorem boot_streak (algorithm : boot.schedulingAlgorithm = 3) {before : List (Label × Machine)}
    {pid : Nat} (run : Runs boot (before ++ [(.dispatch pid, last)]) last)
    (force : InForce (before ++ [(.dispatch pid, last)]) shares)
    (stay : ∀ x ∈ before, ¬ x.1.isExit)
    (limit : ((dispatches before).length + 1 : Int) = shares 1) :
    pid = 1 ∧ (streak 1 (quanta (before ++ [(.dispatch pid, last)])) : Int) = shares 1 + 1 ∧
      (∀ other, 1 ≤ other → other ≤ 4 → last.kernel.Runnable other) ∧
      last.kernel.shares 1 = shares 1 := by
  have stays : ∀ x ∈ before ++ [(Label.dispatch pid, last)], ¬ x.1.isExit := by
    intro x member
    rcases List.mem_append.mp member with early | final
    · exact stay x early
    · rw [List.mem_singleton.mp final]
      exact id
  have turns : dispatches (before ++ [(.dispatch pid, last)]) = dispatches before ++ [pid] := by
    rw [dispatches_append]
    rfl
  have length : ((dispatches (before ++ [(.dispatch pid, last)])).length : Int) = shares 1 := by
    rw [turns, List.length_append, List.length_singleton, Nat.cast_add, Nat.cast_one, limit]
  have only := boot_dispatches algorithm run force stays length.le
  have all : quanta (before ++ [(.dispatch pid, last)]) =
      List.replicate ((dispatches (before ++ [(.dispatch pid, last)])).length + 1) 1 := by
    rw [quanta, List.eq_replicate_of_mem only, List.length_replicate]
    rfl
  refine ⟨only pid (by rw [turns]; simp), ?_, ?_, force.dispatched run (by decide) (by decide)⟩
  · rw [all, streak_replicate, Nat.cast_add, length]
    rfl
  · intro other low high
    apply (run_runnable_iff run (start_shareState algorithm) stays).mpr
    exact congrArg Process.pState (boot.kernel_proc low (Nat.lt_succ_of_le high))

theorem boot_bound (algorithm : boot.schedulingAlgorithm = 3) (run : Runs boot trace last)
    (exits : ExitBefore trace (shares 1)) (positive : 1 ≤ shares 1)
    (only : ∀ d ∈ dispatches trace, d = 1) (runnable : last.kernel.Runnable 1) :
    ((dispatches trace).length : Int) < shares 1 := by
  by_contra many
  obtain ⟨limit, value⟩ : ∃ limit : Nat, shares 1 = limit + 1 := ⟨(shares 1 - 1).toNat, by omega⟩
  have split : dispatches trace = List.replicate limit 1 ++ 1 ::
      List.replicate ((dispatches trace).length - (limit + 1)) 1 := by
    rw [← List.replicate_succ, List.replicate_append_replicate]
    rw [List.eq_replicate_of_mem only, List.length_replicate]
    congr 1
    omega
  obtain ⟨before, m, after, rfl, first, -⟩ := dispatches_split split
  obtain ⟨x, member, exit⟩ := exits before 1 m after rfl (by
    rw [first, List.length_replicate, value])
  exact run_stays run (start_shareState algorithm) rfl only runnable x
    (List.mem_append_left _ member) exit

end Boot

theorem within_shares_iff (boot : Boot) (algorithm : boot.schedulingAlgorithm = 3)
    (trace : List (Label × Machine)) (last : Machine) (run : Runs boot trace last)
    (shares : Nat → Int) (force : InForce trace shares) :
    WithinShares trace ↔ ExitBefore trace (shares 1) := by
  constructor
  · intro within before pid m after split limit
    by_contra none
    rw [split] at run force
    have force : InForce (before ++ [(.dispatch pid, m)] ++ after) shares := by simpa using force
    obtain ⟨rfl, count, runnable, share⟩ := boot_streak algorithm run.upto force.initial
      (fun x member exit => none ⟨x, member, exit⟩) limit
    have bound := within before 1 m after split ⟨2, by decide, by decide, by decide,
      runnable 2 (by decide) (by decide)⟩
    rw [count, share] at bound
    omega
  · intro exits before pid m after split shared
    rw [split] at run force exits
    have kept := fun p low high => force.dispatched run (p := p) low high
    have force : InForce (before ++ [(.dispatch pid, m)] ++ after) shares := by simpa using force
    obtain ⟨table, user⟩ := (runs_shareState algorithm run.upto).table
    obtain ⟨current, runnable⟩ : m.kernel.current = pid ∧ m.kernel.Runnable pid := by
      obtain ⟨middle, -, step, -⟩ := run.upto.split_snoc
      cases step with
      | dispatch picked => exact ⟨rfl, user _ rfl⟩
    have bound := table.current
    rw [current] at bound
    have high : pid ≤ 4 := Nat.le_of_lt_succ bound.2
    rw [kept pid bound.1 high]
    obtain ⟨earlier, turns⟩ := streak_split pid (quanta (before ++ [(.dispatch pid, m)]))
    generalize streak pid (quanta (before ++ [(.dispatch pid, m)])) = length at *
    rcases earlier with - | ⟨q, earlier⟩
    · -- Every quantum so far went to process 1.
      have all : ∀ d ∈ quanta (before ++ [(.dispatch pid, m)]), d = pid := fun d member =>
        List.eq_of_mem_replicate (turns ▸ member)
      obtain rfl : 1 = pid := all 1 List.mem_cons_self
      have early : ExitBefore (before ++ [(.dispatch 1, m)]) (shares 1) := by
        intro past p m' later same limit
        exact exits past p m' (later ++ after) (by rw [List.append_cons, same]; simp) limit
      have within := boot_bound algorithm run.upto early (force.positive 1 (by decide) (by decide))
        (fun d member => all d (List.mem_cons_of_mem _ member)) runnable
      have count := congrArg List.length turns
      rw [quanta, List.length_cons, List.nil_append, List.length_replicate] at count
      omega
    · exact streak_bound algorithm run.upto force.initial (List.cons.inj turns).2 runnable shared
        bound.1 high

theorem inForce_of_all {trace : List (Label × Machine)} {shares : Nat → Int}
    (all : ∀ x ∈ trace, ∀ pid, 1 ≤ pid → pid ≤ 4 → x.2.kernel.shares pid = shares pid)
    (positive : ∀ pid, 1 ≤ pid → pid ≤ 4 → 1 ≤ shares pid) : InForce trace shares := by
  refine ⟨fun before x after split _ => all x ?_, positive⟩
  rw [split]
  exact List.mem_append_right _ List.mem_cons_self

private def firstQuantum (intno : BitVec 32) : Kernel :=
  (interrupt (trap intno 0) (bareBoot 3).kernel).kernel

private def secondQuantum (intno : BitVec 32) : Kernel :=
  ((firstQuantum intno).schedule 2).getD (firstQuantum intno)

private def twoQuanta (intno : BitVec 32) : List (Label × Machine) :=
  [(.interrupt 1 (trap intno 0), .scheduling (firstQuantum intno)),
    (.dispatch (secondQuantum intno).current, .user (secondQuantum intno))]

private theorem twoQuanta_run (intno : BitVec 32)
    (gives : (trap intno 0).service ∈ [Service.yield, .exit, .clock])
    (ends : (firstQuantum intno).schedule 2 = some (secondQuantum intno)) :
    Runs (bareBoot 3) (twoQuanta intno) (.user (secondQuantum intno)) := by
  have picked : (firstQuantum intno).Schedules (secondQuantum intno) := ⟨2, ends⟩
  exact .cons (step_schedules (bareBoot 3).kernel gives) (.cons (.dispatch picked) (.nil _))

private theorem twoQuanta_inForce (intno : BitVec 32) (known : intno = 48 ∨ intno = 49) :
    InForce (twoQuanta intno) fun _ => 1 := by
  refine inForce_of_all ?_ fun _ _ _ => le_rfl
  rintro x member pid low high
  simp only [twoQuanta, List.mem_cons, List.not_mem_nil, or_false] at member
  rcases known with rfl | rfl <;> rcases member with rfl | rfl <;> interval_cases pid <;> rfl

theorem within_shares_exit : WithinShares (twoQuanta 49) := by
  have run := twoQuanta_run 49 (by decide) rfl
  have force := twoQuanta_inForce 49 (.inr rfl)
  refine (within_shares_iff (bareBoot 3) rfl _ _ run _ force).mpr ?_
  intro before pid m after split limit
  rcases before with - | ⟨x, before⟩
  · cases (List.cons.inj split).1
  · rw [← (List.cons.inj split).1]
    exact ⟨_, List.mem_cons_self, rfl⟩

theorem within_shares_fails : ¬ ∀ boot : Boot, boot.schedulingAlgorithm = 3 →
    ∀ trace last, Runs boot trace last → ∀ shares, InForce trace shares → WithinShares trace := by
  intro shared
  have run := twoQuanta_run 48 (by decide) rfl
  have force := twoQuanta_inForce 48 (.inl rfl)
  have within := shared (bareBoot 3) rfl _ _ run _ force
  have bound := within [_] 1 _ [] rfl ⟨2, by decide, by decide, by decide, rfl⟩
  exact absurd bound (by decide)

end SchedOS
