import SchedOS.App.Turns

set_option autoImplicit false

namespace SchedOS

namespace App

def dispatched (s s' : System) : List Nat :=
  match s.machine with
  | .scheduling _ => [s'.machine.kernel.current]
  | _ => []

inductive Plays (build : Build) (sched : Kernel → Kernel → Prop) (boot : Boot) :
    List Nat → System → Prop where
  | start : Plays build sched boot [1] (init boot)
  | step {turns : List Nat} {s s' : System} (before : Plays build sched boot turns s)
      (next : Unclocked build sched s s') : Plays build sched boot (turns ++ dispatched s s') s'

theorem Unclocked.toStep {build : Build} {sched : Kernel → Kernel → Prop} {s s' : System}
    (step : Unclocked build sched s s') : Step build sched s s' :=
  ⟨_, step.choose_spec.2⟩

section Firsts

def firsts (n : Nat) (turns : List Nat) : List Nat :=
  turns.foldl (fun shown pid => if shown.count pid < n then shown ++ [pid] else shown) []

variable {n : Nat} {turns : List Nat}

theorem firsts_concat (pid : Nat) : firsts n (turns ++ [pid]) =
    if (firsts n turns).count pid < n then firsts n turns ++ [pid] else firsts n turns := by
  rw [firsts, List.foldl_concat]
  rfl

theorem firsts_count (pid : Nat) : (firsts n turns).count pid = min (turns.count pid) n := by
  induction turns using List.reverseRecOn with
  | nil => simp [firsts]
  | append_singleton turns last ih =>
      rw [firsts_concat, List.count_append]
      by_cases same : last = pid
      · subst same
        rw [List.count_singleton_self]
        split_ifs with room
        · rw [List.count_append, List.count_singleton_self]
          omega
        · omega
      · have none : [last].count pid = 0 :=
          List.count_eq_zero_of_not_mem fun member => same (List.mem_singleton.mp member).symm
        rw [none, Nat.add_zero, ← ih]
        split_ifs
        · rw [List.count_append, none, Nat.add_zero]
        · rfl

theorem firsts_shows {pid : Nat} (room : turns.count pid < n) :
    firsts n (turns ++ [pid]) = firsts n turns ++ [pid] := by
  rw [firsts_concat, if_pos]
  rw [firsts_count]
  omega

theorem firsts_begins (pid : Nat) : firsts n turns <+: firsts n (turns ++ [pid]) := by
  rw [firsts_concat]
  split_ifs
  · exact List.prefix_append _ _
  · exact List.prefix_rfl

theorem firsts_kept {more : List Nat}
    (few : ∀ pid ∈ more, turns.count pid + more.count pid ≤ n) :
    firsts n (turns ++ more) = firsts n turns ++ more := by
  induction more using List.reverseRecOn with
  | nil => simp
  | append_singleton more last ih =>
      have mine := few last (by simp)
      rw [List.count_append, List.count_singleton_self] at mine
      rw [← List.append_assoc, firsts_shows (by rw [List.count_append]; omega), ih,
        List.append_assoc]
      intro pid member
      have all := few pid (List.mem_append_left _ member)
      rw [List.count_append] at all
      omega

theorem firsts_dropped {more : List Nat} (many : ∀ pid ∈ more, n ≤ turns.count pid) :
    firsts n (turns ++ more) = firsts n turns := by
  induction more using List.reverseRecOn with
  | nil => simp
  | append_singleton more last ih =>
      have mine := many last (by simp)
      rw [← List.append_assoc, firsts_concat, ih fun pid member =>
        many pid (List.mem_append_left _ member), firsts_count, if_neg (by omega)]

theorem firsts_mono {whole : List Nat} (begins : turns <+: whole) :
    firsts n turns <+: firsts n whole := by
  obtain ⟨rest, rfl⟩ := begins
  induction rest using List.reverseRecOn with
  | nil => simp
  | append_singleton rest last ih =>
      rw [← List.append_assoc]
      exact ih.trans (firsts_begins last)

theorem length_of_counts {xs : List Nat} (authors : ∀ pid ∈ xs, 1 ≤ pid ∧ pid < nprocs) :
    xs.length = ∑ pid ∈ Finset.Ico 1 nprocs, xs.count pid := by
  have inside : ∀ pid ∈ (xs : Multiset Nat), pid ∈ Finset.Ico 1 nprocs := fun pid member =>
    Finset.mem_Ico.mpr (authors pid member)
  simpa using (Multiset.sum_count_eq_card inside).symm

theorem firsts_length (authors : ∀ pid ∈ turns, 1 ≤ pid ∧ pid < nprocs) :
    (firsts n turns).length = ∑ pid ∈ Finset.Ico 1 nprocs, min (turns.count pid) n := by
  have kept (pid : Nat) (member : pid ∈ firsts n turns) : 1 ≤ pid ∧ pid < nprocs := by
    have some := List.count_pos_iff.mpr member
    rw [firsts_count] at some
    exact authors pid (List.count_pos_iff.mp (by omega))
  rw [length_of_counts kept]
  exact Finset.sum_congr rfl fun pid _ => firsts_count pid

end Firsts

section Turns

variable {build : Build} {boot : Boot} {sched : Kernel → Kernel → Prop} {turns : List Nat}
  {s s' : System} {k k' : Kernel} {thread : Nat → Thread}

def nth (turns : List Nat) (j : Nat) : Nat := turns.getD j 0

theorem nth_concat (turns : List Nat) (pid : Nat) : nth (turns ++ [pid]) turns.length = pid := by
  simp [nth]

theorem had_nth (pid : Nat) {j : Nat} (bound : j ≤ turns.length) :
    had (nth turns) pid j = (turns.take j).count pid := by
  induction j with
  | zero => simp [had]
  | succ j ih =>
      have inside : j < turns.length := bound
      have entry : nth turns j = turns[j] := by simp [nth, inside]
      rw [had_succ, ih (by omega), List.take_succ_eq_append_getElem inside, List.count_append,
        entry, List.count_singleton]
      by_cases same : turns[j] = pid <;> simp [same]

theorem had_earlier (turns : List Nat) (last pid : Nat) :
    had (nth (turns ++ [last])) pid turns.length = turns.count pid := by
  rw [had_nth pid (by simp), List.take_left]

theorem had_all (turns : List Nat) (pid : Nat) :
    had (nth turns) pid turns.length = turns.count pid := by
  rw [had_nth pid (Nat.le_refl _), List.take_length]

structure TurnState (build : Build) (boot : Boot) (turns : List Nat) (s : System) : Prop where
  state : AppState build boot s
  authors : ∀ pid ∈ turns, 1 ≤ pid ∧ pid < nprocs
  inTurn : ∃ earlier last, turns = earlier ++ [last] ∧ InTurn build (nth turns) earlier.length s
  shown : ∃ log, Printed s log ∧ log <+: firsts build.runcount turns

theorem TurnState.extends (here : TurnState build boot turns ⟨.user k, thread⟩)
    (stateAfter : AppState build boot s')
    (turnAfter : ∀ j, InTurn build (nth turns) j ⟨.user k, thread⟩ →
      InTurn build (nth turns) j s')
    (grows : ∀ log, Printed ⟨.user k, thread⟩ log →
      ∃ after, Extends k.current log after ∧ Printed s' after) :
    TurnState build boot turns s' := by
  obtain ⟨state, authors, ⟨earlier, last, rfl, inTurn⟩, log, printed, shown⟩ := here
  have next := turnAfter _ inTurn
  refine ⟨stateAfter, authors, ⟨earlier, last, rfl, next⟩, ?_⟩
  obtain ⟨after, extended, printedAfter⟩ := grows log printed
  refine ⟨after, printedAfter, ?_⟩
  rcases extended with rfl | rfl
  · exact shown
  have current : k.current = last := inTurn.1.trans (nth_concat earlier last)
  obtain ⟨left, length⟩ := inTurn.shows state printed stateAfter next printedAfter
  rw [nth_concat, had_earlier] at left
  simp only [had_earlier] at length
  rw [← firsts_length fun pid member => authors pid (List.mem_append_left _ member)] at length
  apply prefix_append shown
  rw [firsts_shows left, length, current, List.getElem?_concat_length]

theorem TurnState.runnable (here : TurnState build boot turns ⟨.scheduling k, thread⟩) {pid : Nat}
    (low : 1 ≤ pid) (high : pid < nprocs) :
    (thread pid).Rests build (turns.count pid) ∧
      (k.Runnable pid ↔ turns.count pid ≤ build.runcount) := by
  obtain ⟨state, -, ⟨earlier, last, rfl, inTurn⟩, -⟩ := here
  have whole : earlier.length + 1 = (earlier ++ [last]).length := by simp
  have ready := inTurn.runnable state pid low high
  have rests := inTurn.2 pid low high
  rw [whole, had_all] at ready rests
  exact ⟨rests, ready⟩

theorem TurnState.dispatch (here : TurnState build boot turns ⟨.scheduling k, thread⟩)
    (picked : k.Picks k') (stateAfter : AppState build boot ⟨.user k', thread⟩) :
    TurnState build boot (turns ++ [k'.current]) ⟨.user k', thread⟩ := by
  obtain ⟨pid, high, ready, times, rngs, rfl⟩ := picked
  have low := here.state.table.1.positive ready
  obtain ⟨rests, runnable⟩ := here.runnable low high
  have others (other : Nat) (low : 1 ≤ other) (high : other < nprocs) :=
    (here.runnable low high).1
  obtain ⟨log, printed, shown⟩ := here.shown
  refine ⟨stateAfter, fun other member => ?_, ⟨turns, pid, rfl, ?_⟩, log, printed.transfer rfl rfl,
    shown.trans (firsts_begins pid)⟩
  · rcases List.mem_append.mp member with before | last
    · exact here.authors other before
    · exact List.mem_singleton.mp last ▸ ⟨low, high⟩
  · change pid = nth (turns ++ [pid]) turns.length ∧ _
    simp only [nth_concat, had_earlier, true_and]
    exact ⟨rests.acts (here.state.valid pid) (runnable.mp ready), fun other low high _ =>
      others other low high⟩

theorem TurnState.step (locks : build.syncMethod = 1) (room : 4 * build.runcount ≤ 2000)
    (safe : Safe boot sched) (here : TurnState build boot turns s)
    (step : Unclocked build sched s s') : TurnState build boot (turns ++ dispatched s s') s' := by
  have stateAfter := here.state.step safe (.inl locks) step.toStep
  obtain ⟨_, unclocked, step⟩ := step
  cases step with
  | access acts =>
      rw [dispatched, List.append_nil]
      exact here.extends stateAfter (fun j inTurn => inTurn.access acts) fun log printed =>
        printed.access room here.state acts
  | call requests =>
      rw [dispatched, List.append_nil]
      exact here.extends stateAfter (fun j inTurn => inTurn.call locks here.state requests)
        fun log printed => printed.call room here.state requests
  | clock => exact absurd rfl unclocked
  | dispatch picked =>
      exact here.dispatch (safe _ _ here.state.table.1 here.state.algorithm picked) stateAfter

theorem Plays.turnState (locks : build.syncMethod = 1) (room : 4 * build.runcount ≤ 2000)
    (safe : Safe boot sched) (plays : Plays build sched boot turns s) :
    TurnState build boot turns s := by
  induction plays with
  | start =>
      refine ⟨init_appState build boot, by simp [nprocs], ⟨[], 1, rfl, rfl,
        ⟨(Nat.count_zero _).symm, show Pc.setPriority ≠ .stop by decide⟩,
        fun pid _ _ _ => .inl ⟨Nat.count_zero _, rfl⟩⟩, [], init_printed boot, List.nil_prefix⟩
  | step _ next ih => exact ih.step locks room safe next

theorem plays_finish (locks : build.syncMethod = 1) (room : 4 * build.runcount ≤ 2000)
    (safe : Safe boot sched)
    (ends : ∀ turns k thread, Plays build sched boot turns ⟨.scheduling k, thread⟩ →
      k.SomeRunnable → ∃ k', sched k k') :
    ∃ turns s, Plays build sched boot turns s ∧ ¬ s.machine.kernel.SomeRunnable := by
  have last := @Reach.of_rank System (Unclocked build sched)
    (fun s => ∃ turns, Plays build sched boot turns s) (fun s => ¬ s.machine.kernel.SomeRunnable)
    (System.toGo build) ?_ (init boot) ⟨[1], .start⟩
  · obtain ⟨s, -, ⟨turns, plays⟩, done⟩ := last
    exact ⟨turns, s, plays, done⟩
  · rintro s ⟨turns, plays⟩
    by_cases left : s.machine.kernel.SomeRunnable
    · have here := plays.turnState locks room safe
      obtain ⟨earlier, last, -, inTurn⟩ := here.inTurn
      obtain ⟨s', step⟩ : ∃ s', Unclocked build sched s s' := by
        obtain ⟨m, thread⟩ := s
        cases m with
        | user k => exact here.state.progress
        | scheduling k =>
            obtain ⟨k', picked⟩ := ends turns k thread plays left
            exact ⟨_, .dispatch picked⟩
        | halted k => exact inTurn.elim
      exact .inr ⟨s', step, ⟨_, plays.step step⟩, inTurn.less locks here.state step⟩
    · exact .inl left

theorem TurnState.scheduling (here : TurnState build boot turns ⟨.scheduling k, thread⟩) :
    Printed ⟨.scheduling k, thread⟩ (firsts build.runcount turns) := by
  obtain ⟨log, printed, shown⟩ := here.shown
  have length : log.length = (firsts build.runcount turns).length := by
    rw [printed.length_sum, firsts_length here.authors]
    refine Finset.sum_congr rfl fun pid member => ?_
    obtain ⟨low, high⟩ := Finset.mem_Ico.mp member
    exact (here.runnable low high).1.printed (here.state.valid pid)
  exact shown.eq_of_length length ▸ printed

theorem TurnState.finished (here : TurnState build boot turns s)
    (done : ¬ s.machine.kernel.SomeRunnable) :
    Printed s (firsts build.runcount turns) ∧
      (firsts build.runcount turns).length = 4 * build.runcount ∧
      s.machine.kernel.cursorpos = cell (4 * build.runcount) ∧
      ∀ pid, 1 ≤ pid → pid ≤ 4 → turns.count pid = build.runcount + 1 := by
  have exited (pid : Nat) (low : 1 ≤ pid) (high : pid < nprocs) : ¬ s.machine.kernel.Runnable pid :=
    fun ready => done ⟨pid, low, Nat.le_of_lt_succ high, ready⟩
  obtain ⟨outside, all⟩ := here.state.finished exited
  obtain ⟨m, thread⟩ := s
  cases m with
  | user k =>
      have ready := here.state.table.2 k rfl
      obtain ⟨low, high⟩ := here.state.table.1.current
      exact absurd ready (exited k.current low high)
  | halted k => exact here.inTurn.elim fun _ rest => rest.elim fun _ turn => turn.2.elim
  | scheduling k =>
      have printed := here.scheduling
      have length := printed.length_eq all
      refine ⟨printed, length, length ▸ printed.between outside, fun pid low high => ?_⟩
      have bound : pid < nprocs := Nat.lt_succ_of_le high
      obtain ⟨rests, ready⟩ := here.runnable low bound
      have gone : ¬ turns.count pid ≤ build.runcount := fun few =>
        exited pid low bound (ready.mpr few)
      rcases rests with ⟨none, -⟩ | ⟨-, most, -⟩ | ⟨all, -⟩ <;> omega

theorem no_endless_run (locks : build.syncMethod = 1) (room : 4 * build.runcount ≤ 2000)
    (safe : Safe boot sched) : ¬ ∃ run : Nat → System, run 0 = init boot ∧
      ∀ i, Unclocked build sched (run i) (run (i + 1)) := by
  rintro ⟨run, first, steps⟩
  have here (i : Nat) : (∃ turns, Plays build sched boot turns (run i)) ∧
      (run i).toGo build + i ≤ (run 0).toGo build := by
    induction i with
    | zero => exact ⟨⟨[1], first ▸ .start⟩, le_rfl⟩
    | succ i ih =>
        obtain ⟨⟨turns, plays⟩, less⟩ := ih
        have state := plays.turnState locks room safe
        obtain ⟨earlier, last, -, inTurn⟩ := state.inTurn
        have lower := inTurn.less locks state.state (steps i)
        exact ⟨⟨_, plays.step (steps i)⟩, by omega⟩
  have late := (here ((run 0).toGo build + 1)).2
  omega

end Turns

/-- Whatever process the scheduler picks, with the clock off no process ever finds the lock taken,
every run comes to an end, and the screen shows the first `RUNCOUNT` turns of each process, in the
order of the turns. -/
theorem turns_shown (build : Build) (locks : build.syncMethod = 1)
    (room : 4 * build.runcount ≤ 2000) (boot : Boot) (sched : Kernel → Kernel → Prop)
    (safe : ∀ k k', k.WellFormed → k.schedulingAlgorithm = boot.schedulingAlgorithm →
      sched k k' → k.Picks k') :
    (∀ turns s, Plays build sched boot turns s →
      (∃ log, Printed s log ∧ log <+: firsts build.runcount turns) ∧
      (∀ k, s.machine = .user k → (s.thread k.current).pc = .acquire → k.lock = 0) ∧
      (∀ k, s.machine = .user k → ∃ s', Unclocked build sched s s') ∧
      (¬ s.machine.kernel.SomeRunnable →
        s.machine.kernel.cursorpos = cell (4 * build.runcount) ∧
        ((List.range (4 * build.runcount)).map fun j => s.machine.kernel.cells (cell j)) =
          (firsts build.runcount turns).map char ∧
        ∀ pid, 1 ≤ pid → pid ≤ 4 → turns.count pid = build.runcount + 1)) ∧
    ¬ ∃ run : Nat → System, run 0 = init boot ∧
      ∀ i, Unclocked build sched (run i) (run (i + 1)) := by
  constructor
  · intro turns s plays
    have here := plays.turnState locks room safe
    obtain ⟨earlier, last, -, inTurn⟩ := here.inTurn
    refine ⟨here.shown, ?_, ?_, fun done => ?_⟩
    · obtain ⟨m, thread⟩ := s
      rintro k rfl waits
      exact inTurn.free here.state (by rw [waits]; decide)
    · obtain ⟨m, thread⟩ := s
      rintro k rfl
      exact here.state.progress
    · obtain ⟨printed, length, cursor, counts⟩ := here.finished done
      have cells := printed.cells
      rw [length] at cells
      exact ⟨cursor, cells, counts⟩
  · exact no_endless_run locks room safe

theorem turns_shown_source : ∃ turns s, Plays ⟨1, 320⟩ Kernel.Picks (bareBoot 0) turns s ∧
    s.machine.kernel.cursorpos = cell 1280 ∧ turns.count 3 = 321 := by
  obtain ⟨turns, s, plays, done⟩ := @plays_finish ⟨1, 320⟩ (bareBoot 0) Kernel.Picks rfl (by decide)
    (safe_picks _) (by
      rintro turns k thread plays ⟨pid, low, high, ready⟩
      exact ⟨_, pid, Nat.lt_succ_of_le high, ready, k.times, k.rngs, rfl⟩)
  obtain ⟨cursor, -, counts⟩ := ((turns_shown ⟨1, 320⟩ rfl (by decide) (bareBoot 0) Kernel.Picks
    (safe_picks _)).1 turns s plays).2.2.2 done
  exact ⟨turns, s, plays, cursor, counts 3 (by decide) (by decide)⟩

end App

end SchedOS
