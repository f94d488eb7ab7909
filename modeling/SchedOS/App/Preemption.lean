import SchedOS.App.PriorityInversion
import SchedOS.App.Turns

set_option autoImplicit false

namespace SchedOS

namespace App

-- The transitions with the clock on. The flag says whether the current process has done a step
-- since it got the processor; the clock leaves it the time for one.
def Sliced (build : Build) (sched : Kernel → Kernel → Prop) (a b : System × Bool) : Prop :=
  ∃ kind, Move build sched kind a.1 b.1 ∧ (kind = .clock → a.2 = true) ∧
    b.2 = decide (kind ≠ .dispatch)

theorem Sliced.toStep {build : Build} {sched : Kernel → Kernel → Prop} {a b : System × Bool}
    (step : Sliced build sched a b) : Step build sched a.1 b.1 :=
  ⟨_, step.choose_spec.1⟩

/-- What a scheduler needs for the lock not to be lost: it finds some process as long as there is
one, and whoever else it gives the processor to, a runnable process comes nearer to its turn. -/
structure Fair (build : Build) (boot : Boot) (keeps : System → Prop)
    (delay : Kernel → Nat → Nat) : Prop where
  safe : Safe boot Kernel.Schedules
  initial : keeps (init boot)
  step : ∀ {s s'}, AppState build boot s → keeps s → Step build Kernel.Schedules s s' → keeps s'
  ends : ∀ {k thread}, AppState build boot ⟨.scheduling k, thread⟩ →
    keeps ⟨.scheduling k, thread⟩ → k.SomeRunnable → ∃ k', k.Schedules k'
  nearer : ∀ {k k' thread h}, AppState build boot ⟨.scheduling k, thread⟩ →
    keeps ⟨.scheduling k, thread⟩ → k.Schedules k' → 1 ≤ h → h < nprocs → k.Runnable h →
      k'.current ≠ h → delay k' h < delay k h
  still : ∀ (k : Kernel) (reg : Registers) (h : Nat), reg.regIntno = 32 →
    delay (interrupt reg k).kernel h = delay k h

structure FairState (build : Build) (boot : Boot) (keeps : System → Prop) (s : System) : Prop
    extends AppState build boot s where
  alive : ∀ k, s.machine ≠ .halted k
  kept : keeps s

structure Able (h : Nat) (s : System) : Prop where
  bound : 1 ≤ h ∧ h < nprocs
  runnable : s.machine.kernel.Runnable h
  moves : ¬ (s.thread h).Waits s.machine.kernel

def turnsAway (delay : Kernel → Nat → Nat) (h : Nat) (a : System × Bool) : Nat :=
  match a.1.machine with
  | .user k =>
      if a.2 = false ∧ ¬ (a.1.thread k.current).Waits k then 0 else 2 * delay k h + 2
  | .scheduling k => 2 * delay k h + 1
  | .halted _ => 0

section Run

variable {build : Build} {boot : Boot} {keeps : System → Prop} {delay : Kernel → Nat → Nat}
  {s s' : System} {a b : System × Bool} {h : Nat} {k k' : Kernel} {thread : Nat → Thread}
  {ran : Bool}

theorem init_fairState (fair : Fair build boot keeps delay) :
    FairState build boot keeps (init boot) :=
  ⟨init_appState build boot, fun _ => Machine.noConfusion, fair.initial⟩

theorem FairState.step (fair : Fair build boot keeps delay) (sync : build.Synchronized)
    (before : FairState build boot keeps s) (step : Step build Kernel.Schedules s s') :
    FairState build boot keeps s' := by
  refine ⟨before.toAppState.step fair.safe sync step, fun halt => ?_,
    fair.step before.toAppState before.kept step⟩
  obtain ⟨_, step⟩ := step
  cases step with
  | access | dispatch => exact Machine.noConfusion
  | call requests => exact interrupt_alive (requests_service requests) halt
  | clock tick => exact interrupt_alive (.inr (by simp [tick_service tick])) halt

theorem clock_kept {reg : Registers} (tick : reg.regIntno = 32) (k : Kernel) :
    interrupt reg k = .scheduling (interrupt reg k).kernel ∧
      (interrupt reg k).kernel.lock = k.lock ∧
      ∀ pid, (interrupt reg k).kernel.Runnable pid ↔ k.Runnable pid := by
  have kind : reg.service = .clock := tick_service tick
  refine ⟨interrupt_schedules reg k (by simp [kind]), interrupt_lock reg k, fun pid => ?_⟩
  unfold Kernel.Runnable
  rw [interrupt_state, if_neg (by simp [kind])]

theorem Able.step (fair : Fair build boot keeps delay) (sync : build.Synchronized)
    (state : FairState build boot keeps a.1) (able : Able h a.1)
    (step : Sliced build Kernel.Schedules a b) : b.1.left build < a.1.left build ∨
      (Able h b.1 ∧ turnsAway delay h b ≤ turnsAway delay h a ∧
        ((∃ k, a.1.machine = .scheduling k) → turnsAway delay h b < turnsAway delay h a)) := by
  obtain ⟨s, ran⟩ := a
  obtain ⟨s', ran'⟩ := b
  obtain ⟨kind, step, clocked, rfl⟩ := step
  cases step with
  | @access k k' thread t acts =>
      rcases access_left state.lock.binary acts with ⟨waits, rfl, rfl⟩ | less
      · right
        rw [Function.update_eq_self]
        refine ⟨able, ?_, fun ⟨_, other⟩ => nomatch other⟩
        simp only [turnsAway]
        have spins : (thread k'.current).Waits k' := waits
        rw [if_neg (by simp), if_neg fun moves => moves.2 spins]
      · exact .inl (left_update state.table.1.current less _ _)
  | @call k thread reg requests =>
      have less := resume_left sync (state.valid k.current) requests
      exact .inl (left_update state.table.1.current less _ _)
  | @clock k thread reg tick =>
      right
      obtain ⟨enters, lock, ready⟩ := clock_kept tick k
      have still := fair.still k reg h tick
      refine ⟨⟨able.bound, (ready h).mpr able.runnable, ?_⟩, ?_, fun ⟨_, other⟩ => nomatch other⟩
      · have moves := able.moves
        unfold Thread.Waits at moves ⊢
        rwa [show (interrupt reg k).kernel.lock = k.lock from lock]
      · rw [enters]
        have past : ran = true := clocked rfl
        simp only [turnsAway, still, past]
        rw [if_neg (by simp)]
        omega
  | @dispatch k k' thread picked =>
      right
      have nearer : k'.current ≠ h → delay k' h < delay k h := fun other =>
        fair.nearer state.toAppState state.kept picked able.bound.1 able.bound.2 able.runnable other
      obtain ⟨pid, high, runnable, times, rngs, rfl⟩ := fair.safe k k' state.table.1
        state.algorithm picked
      have less : turnsAway delay h (⟨.user ((k.retimed times rngs).run pid), thread⟩, false) <
          turnsAway delay h (⟨.scheduling k, thread⟩, ran) := by
        simp only [turnsAway]
        split_ifs with moves
        · omega
        · -- The process that gets the processor waits for the lock, so it is another one.
          have other : pid ≠ h := by
            rintro rfl
            have free : ¬ (thread pid).Waits k := able.moves
            exact moves ⟨trivial, free⟩
          have before := nearer other
          omega
      exact ⟨⟨able.bound, able.runnable, able.moves⟩, less.le, fun _ => less⟩

theorem FairState.able (state : FairState build boot keeps ⟨.user k, thread⟩) :
    ∃ h, Able h ⟨.user k, thread⟩ := by
  have bound := state.table.1.current
  have runnable : k.Runnable k.current := state.table.2 k rfl
  cases locked : state.lock with
  | free zero _ => exact ⟨k.current, bound, runnable, fun waits => waits.2 zero⟩
  | held holder inRange _ inside _ =>
      refine ⟨holder, inRange, ?_, fun waits => ?_⟩
      · by_contra gone
        have stopped := (state.stopped holder inRange.1 inRange.2).mpr gone
        exact absurd inside (by rw [stopped]; decide)
      · exact absurd inside (by rw [waits.1]; decide)

theorem Step.able (step : Step build Kernel.Schedules s s')
    (calls : s.machine = .scheduling k) (after : FairState build boot keeps s') :
    ∃ h, Able h s' := by
  obtain ⟨_, step⟩ := step
  cases step with
  | access | call | clock => cases calls
  | dispatch picked => exact after.able

theorem FairState.left_le (sync : build.Synchronized)
    (state : FairState build boot keeps s) (step : Step build Kernel.Schedules s s') :
    s'.left build ≤ s.left build := by
  obtain ⟨_, step⟩ := step
  cases step with
  | @access k k' thread t acts =>
      rcases access_left state.lock.binary acts with ⟨waits, rfl, rfl⟩ | less
      · rw [Function.update_eq_self]
      · exact (left_update state.table.1.current less _ _).le
  | @call k thread reg requests =>
      have less := resume_left sync (state.valid k.current) requests
      exact (left_update state.table.1.current less _ _).le
  | clock | dispatch => exact le_rfl

theorem Fair.ends_run (fair : Fair build boot keeps delay) (sync : build.Synchronized)
    {run : Nat → System × Bool} (first : run 0 = (init boot, false))
    (steps : ∀ i, Sliced build Kernel.Schedules (run i) (run (i + 1))) :
    ¬ ∀ i, ∃ j, i ≤ j ∧ ∃ k, (run j).1.machine = .scheduling k := by
  intro preempted
  have state (i : Nat) : FairState build boot keeps (run i).1 := by
    induction i with
    | zero => rw [first]; exact init_fairState fair
    | succ i ih => exact ih.step fair sync (steps i).toStep
  have never_rises (i : Nat) (_ : 0 ≤ i) : (run (i + 1)).1.left build ≤ (run i).1.left build :=
    (state i).left_le sync (steps i).toStep
  obtain ⟨settled, -, same⟩ := Reach.settles (fun i => (run i).1.left build) never_rises
  -- From the next call of `schedule()` on, some process that can run waits for its turn.
  obtain ⟨j, later, k, calls⟩ := preempted settled
  obtain ⟨h, able⟩ := (steps j).toStep.able calls (state (j + 1))
  have turn (i : Nat) (after : j + 1 ≤ i) (able : Able h (run i).1) :
      Able h (run (i + 1)).1 ∧ turnsAway delay h (run (i + 1)) ≤ turnsAway delay h (run i) ∧
        ((∃ k, (run i).1.machine = .scheduling k) →
          turnsAway delay h (run (i + 1)) < turnsAway delay h (run i)) := by
    apply (able.step fair sync (state i) (steps i)).resolve_left
    rw [same i (by omega), same (i + 1) (by omega)]
    exact lt_irrefl _
  have stays (i : Nat) (after : j + 1 ≤ i) : Able h (run i).1 := by
    induction i, after using Nat.le_induction with
    | base => exact able
    | succ i after ih => exact (turn i after ih).1
  apply Reach.not_drops (fun i => turnsAway delay h (run i))
    fun i after => (turn i after (stays i after)).2.1
  intro i
  obtain ⟨next, more, calls⟩ := preempted (max i (j + 1))
  have after : j + 1 ≤ next := (le_max_right i (j + 1)).trans more
  exact ⟨next, (le_max_left i (j + 1)).trans more, (turn next after (stays next after)).2.2 calls⟩

theorem Unclocked.sliced {sched : Kernel → Kernel → Prop} (step : Unclocked build sched s s')
    (ran : Bool) : ∃ b, Sliced build sched (s, ran) b := by
  obtain ⟨kind, unclocked, step⟩ := step
  exact ⟨(s', _), kind, step, fun clock => absurd clock unclocked, rfl⟩

theorem FairState.progress (fair : Fair build boot keeps delay)
    (state : FairState build boot keeps a.1) (left : a.1.machine.kernel.SomeRunnable) :
    ∃ b, Sliced build Kernel.Schedules a b := by
  obtain ⟨⟨m, thread⟩, ran⟩ := a
  cases m with
  | user k =>
      obtain ⟨s', step⟩ := state.toAppState.progress
      exact step.sliced ran
  | scheduling k =>
      obtain ⟨k', picked⟩ := fair.ends state.toAppState state.kept left
      exact ⟨(_, _), _, .dispatch picked, Kind.noConfusion, rfl⟩
  | halted k => exact absurd rfl (state.alive k)

structure Finished (build : Build) (s : System) : Prop where
  exited : ∀ p, 1 ≤ p → p ≤ 4 → (s.machine.kernel.procArray p).pState = .zombie
  cursor : s.machine.kernel.cursorpos = cell (4 * build.runcount)
  screen : ∀ p, 1 ≤ p → p ≤ 4 → ((List.range (4 * build.runcount)).map fun j =>
    s.machine.kernel.cells (cell j)).count (char p) = build.runcount

theorem AppState.done (state : AppState build boot s) {log : List Nat} (printed : Printed s log)
    (none : ¬ s.machine.kernel.SomeRunnable) : Finished build s := by
  have gone (pid : Nat) (low : 1 ≤ pid) (high : pid < nprocs) :
      ¬ s.machine.kernel.Runnable pid := fun runnable =>
    none ⟨pid, low, Nat.le_of_lt_succ high, runnable⟩
  obtain ⟨outside, all⟩ := state.finished gone
  have length := printed.length_eq all
  refine ⟨fun p low high => ?_, length ▸ printed.between outside, fun p low high => ?_⟩
  · have inside := Nat.lt_succ_of_le high
    exact (state.table.1.states p low inside).resolve_left (gone p low inside)
  · have bound : 1 ≤ p ∧ p < nprocs := ⟨low, Nat.lt_succ_of_le high⟩
    rw [← length, printed.cells, printed.count_char bound, printed.counts, all p low bound.2]

theorem Fair.ends_finished (fair : Fair build boot keeps delay) (sync : build.Synchronized)
    (room : 4 * build.runcount ≤ 2000)
    (reaches : Relation.ReflTransGen (Sliced build Kernel.Schedules) (init boot, false) a) :
    (∃ b, Sliced build Kernel.Schedules a b) ∨ Finished build a.1 := by
  have both := Reach.invariant reaches
    (fun a => FairState build boot keeps a.1 ∧ ∃ log, Printed a.1 log)
    ⟨init_fairState fair, [], init_printed boot⟩ fun a b before step => by
      obtain ⟨state, log, printed⟩ := before
      obtain ⟨after, -, next⟩ := printed.step fair.safe room state.toAppState step.toStep
      exact ⟨state.step fair sync step.toStep, after, next⟩
  obtain ⟨state, log, printed⟩ := both
  by_cases left : a.1.machine.kernel.SomeRunnable
  · exact .inl (state.progress fair left)
  · exact .inr (state.toAppState.done printed left)

end Run

end App

end SchedOS
