import SchedOS.App.Dispatches
import SchedOS.App.PriorityInversion

set_option autoImplicit false

namespace SchedOS

namespace App

def priorityOutput (n : Nat) : List Nat :=
  [1, 2, 3, 4] ++ (List.replicate (n - 1) [2, 4]).flatten ++ List.replicate (n - 1) 1 ++
    List.replicate (n - 1) 3

-- Whose turn it is: one turn for each, then 2 and 4 by turns, then 1, then 3.
def priorityTurn (n j : Nat) : Nat :=
  if j < 4 then j + 1
  else if j < 4 + 2 * n then (if j % 2 = 0 then 2 else 4)
  else if j < 4 + 3 * n then 1
  else 3

def priorityTurns (n : Nat) : List Nat := (List.range (4 * n + 4)).map (priorityTurn n)

section Turn

variable {n j : Nat}

theorem priorityTurn_cases (n j : Nat) :
    (j < 4 ∧ priorityTurn n j = j + 1) ∨
    (4 ≤ j ∧ j < 4 + 2 * n ∧ j % 2 = 0 ∧ priorityTurn n j = 2) ∨
    (4 ≤ j ∧ j < 4 + 2 * n ∧ j % 2 = 1 ∧ priorityTurn n j = 4) ∨
    (4 + 2 * n ≤ j ∧ j < 4 + 3 * n ∧ priorityTurn n j = 1) ∨
    (4 + 3 * n ≤ j ∧ priorityTurn n j = 3) := by
  unfold priorityTurn
  split_ifs <;> omega

theorem had_priority (n j : Nat) :
    had (priorityTurn n) 1 j = min 1 j + min n (j - (4 + 2 * n)) ∧
      had (priorityTurn n) 2 j = min 1 (j - 1) + min n ((j - 3) / 2) ∧
      had (priorityTurn n) 3 j = min 1 (j - 2) + (j - (4 + 3 * n)) ∧
      had (priorityTurn n) 4 j = min 1 (j - 3) + min n ((j - 4) / 2) := by
  induction j with
  | zero => simp [had]
  | succ j ih =>
      obtain ⟨one, two, three, four⟩ := ih
      simp only [had_succ, one, two, three, four]
      clear one two three four
      rcases priorityTurn_cases n j with ⟨early, turn⟩ | ⟨low, high, even, turn⟩ |
        ⟨low, high, odd, turn⟩ | ⟨low, high, turn⟩ | ⟨low, turn⟩ <;> rw [turn]
      · interval_cases j <;> simp <;> omega
      all_goals
        simp only [Nat.reduceEqDiff, if_true, if_false]
        refine ⟨?_, ?_, ?_, ?_⟩ <;> omega

theorem priorityTurns_getElem (bound : j < 4 * n + 4) :
    (priorityTurns n)[j]? = some (priorityTurn n j) := by
  rw [priorityTurns, List.getElem?_map, List.getElem?_range bound]
  rfl

theorem had_congr {first second : Nat → Nat} (same : ∀ i, i < j → first i = second i) (pid : Nat) :
    had first pid j = had second pid j := by
  induction j with
  | zero => rfl
  | succ j ih =>
      rw [had_succ, had_succ, ih fun i less => same i (by omega), same j (Nat.lt_succ_self j)]

theorem nth_priority {turns : List Nat} (begins : turns <+: priorityTurns n)
    (inside : j < turns.length) : nth turns j = priorityTurn n j := by
  have less : turns.length ≤ 4 * n + 4 := by
    simpa [priorityTurns] using begins.length_le
  have entry := begins.getElem inside
  have whole := priorityTurns_getElem (n := n) (j := j) (by omega)
  rw [List.getElem?_eq_getElem (by simp [priorityTurns]; omega), Option.some_inj] at whole
  simpa [nth, inside, entry] using whole

theorem count_priority {turns : List Nat} (begins : turns <+: priorityTurns n) (pid : Nat) :
    turns.count pid = had (priorityTurn n) pid turns.length := by
  rw [← had_all]
  exact had_congr (fun i less => nth_priority begins less) pid

end Turn

section Next

variable {build : Build} {boot : Boot} {k : Kernel} {thread : Nat → Thread} {turns : List Nat}

theorem isNext_minimal {c p : Nat} (bound : p < nprocs) (ready : k.Runnable p)
    (others : ∀ q, q < nprocs → k.Runnable q → k.priorities p ≤ k.priorities q ∧
      (k.priorities q ≤ k.priorities p → Rotation.gap nprocs c p ≤ Rotation.gap nprocs c q)) :
    Rotation.IsNext nprocs k.MinimalPriority c p :=
  ⟨bound, ⟨ready, fun q inside runs => (others q inside runs).1⟩, fun q inside minimal =>
    (others q inside minimal.1).2 (minimal.2 p bound ready)⟩

def priorityAfter (pid turns : Nat) : Int := if turns = 0 then 1 else priority pid

theorem TurnState.priorities (here : TurnState build boot turns ⟨.scheduling k, thread⟩)
    (state : PriorityState build boot ⟨.scheduling k, thread⟩) {pid : Nat} (low : 1 ≤ pid)
    (high : pid < nprocs) : k.priorities pid = priorityAfter pid (turns.count pid) := by
  have rests := (here.runnable low high).1
  have known : k.priorities pid = if (thread pid).pc = .setPriority then 1 else priority pid :=
    state.priorities pid low high
  rw [known, priorityAfter]
  rcases rests with ⟨none, waits⟩ | ⟨some, -, -, waits⟩ | ⟨all, waits⟩
  · rw [if_pos none, if_pos waits]
  · have head : build.head (turns.count pid) ≠ .setPriority := by
      unfold Build.head
      split_ifs <;> decide
    rw [if_neg (by rw [waits]; exact head), if_neg (Nat.ne_of_gt some)]
  · rw [if_neg (by rw [waits]; decide), if_neg (by omega)]

theorem priority_values : priority 1 = 5 ∧ priority 2 = 1 ∧ priority 3 = 6 ∧ priority 4 = 1 := by
  decide

def standing (n j pid : Nat) : Int := priorityAfter pid (had (priorityTurn n) pid (j + 1))

theorem standing_values (n j : Nat) :
    standing n j 1 = 5 ∧ standing n j 2 = 1 ∧ standing n j 3 = (if j < 2 then 1 else 6) ∧
      standing n j 4 = 1 := by
  obtain ⟨one, two, three, four⟩ := had_priority n (j + 1)
  obtain ⟨prior1, prior2, prior3, prior4⟩ := priority_values
  simp only [standing, priorityAfter, one, two, three, four, prior1, prior2, prior3, prior4]
  clear one two three four
  refine ⟨?_, ?_, ?_, ?_⟩ <;> split_ifs <;> first | rfl | omega

theorem next_turn_left {n j : Nat} (room : j + 1 < 4 * n + 4) :
    (1 ≤ priorityTurn n (j + 1) ∧ priorityTurn n (j + 1) < nprocs) ∧
      had (priorityTurn n) (priorityTurn n (j + 1)) (j + 1) ≤ n := by
  obtain ⟨one, two, three, four⟩ := had_priority n (j + 1)
  rcases priorityTurn_cases n (j + 1) with ⟨early, turn⟩ | ⟨low, high, even, turn⟩ |
    ⟨low, high, odd, turn⟩ | ⟨low, high, turn⟩ | ⟨low, turn⟩ <;> rw [turn]
  · have some : j < 3 := by omega
    interval_cases j
    · rw [two]; exact ⟨by decide, by omega⟩
    · rw [three]; exact ⟨by decide, by omega⟩
    · rw [four]; exact ⟨by decide, by omega⟩
  · rw [two]; exact ⟨by decide, by omega⟩
  · rw [four]; exact ⟨by decide, by omega⟩
  · rw [one]; exact ⟨by decide, by omega⟩
  · rw [three]; exact ⟨by decide, by omega⟩

theorem next_turn_first {n j q : Nat} (room : j + 1 < 4 * n + 4) (low : 1 ≤ q) (high : q < nprocs)
    (few : had (priorityTurn n) q (j + 1) ≤ n) :
    standing n j (priorityTurn n (j + 1)) ≤ standing n j q ∧
      (standing n j q ≤ standing n j (priorityTurn n (j + 1)) →
        Rotation.gap nprocs (priorityTurn n j) (priorityTurn n (j + 1)) ≤
          Rotation.gap nprocs (priorityTurn n j) q) := by
  obtain ⟨one, two, three, four⟩ := had_priority n (j + 1)
  obtain ⟨level1, level2, level3, level4⟩ := standing_values n j
  have least : 1 ≤ standing n j q := by
    simp only [nprocs] at high
    interval_cases q
    · omega
    · omega
    · rw [level3]; split_ifs <;> decide
    · omega
  rcases priorityTurn_cases n (j + 1) with ⟨early, turn⟩ | ⟨past, pairs, even, turn⟩ |
    ⟨past, pairs, odd, turn⟩ | ⟨past, ones, turn⟩ | ⟨past, turn⟩
  · -- The next in the table has not run yet.
    have here : priorityTurn n j = j + 1 := by simp [priorityTurn, show j < 4 by omega]
    have adjacent : Rotation.gap nprocs (j + 1) (j + 1 + 1) = 0 := by
      have some : j < 3 := by omega
      interval_cases j <;> rfl
    have fresh : standing n j (j + 1 + 1) = 1 := by
      have some : j < 3 := by omega
      interval_cases j
      · exact level2
      · rw [level3]; rfl
      · exact level4
    rw [turn, here, adjacent, fresh]
    exact ⟨least, fun _ => Nat.zero_le _⟩
  · have here : priorityTurn n j = 4 := by
      rcases priorityTurn_cases n j with h | h | h | h | h <;> omega
    have late : ¬ j < 2 := by omega
    rw [turn, here, level2]
    refine ⟨least, fun smallest => ?_⟩
    simp only [nprocs] at high
    interval_cases q
    · omega
    · exact le_rfl
    · rw [level3, if_neg late] at smallest; omega
    · decide
  · have here : priorityTurn n j = 2 := by
      rcases priorityTurn_cases n j with h | h | h | h | h <;> omega
    have late : ¬ j < 2 := by omega
    rw [turn, here, level4]
    refine ⟨least, fun smallest => ?_⟩
    simp only [nprocs] at high
    interval_cases q
    · omega
    · decide
    · rw [level3, if_neg late] at smallest; omega
    · exact le_rfl
  · have late : ¬ j < 2 := by omega
    rw [turn, level1]
    simp only [nprocs] at high
    interval_cases q
    · exact ⟨level1.ge, fun _ => le_rfl⟩
    · omega
    · rw [level3, if_neg late]; exact ⟨by decide, fun smaller => absurd smaller (by decide)⟩
    · omega
  · rw [turn]
    simp only [nprocs] at high
    interval_cases q
    · omega
    · omega
    · exact ⟨le_rfl, fun _ => le_rfl⟩
    · omega

theorem TurnState.next_priority (here : TurnState build boot turns ⟨.scheduling k, thread⟩)
    (state : PriorityState build boot ⟨.scheduling k, thread⟩)
    (begins : turns <+: priorityTurns build.runcount) (left : k.SomeRunnable) :
    turns.length < 4 * build.runcount + 4 ∧
      Rotation.IsNext nprocs k.MinimalPriority k.current
        (priorityTurn build.runcount turns.length) := by
  obtain ⟨earlier, last, rfl, inTurn⟩ := here.inTurn
  have ready (pid : Nat) (low : 1 ≤ pid) (high : pid < nprocs) := (here.runnable low high).2
  have prior (pid : Nat) (low : 1 ≤ pid) (high : pid < nprocs) := here.priorities state low high
  have length : (earlier ++ [last]).length = earlier.length + 1 := by simp
  have current : k.current = priorityTurn build.runcount earlier.length := by
    rw [← nth_priority begins (by omega)]
    exact inTurn.1
  simp only [count_priority begins, length] at ready prior ⊢
  have room : earlier.length + 1 < 4 * build.runcount + 4 := by
    obtain ⟨pid, low, high, runs⟩ := left
    have few := (ready pid low (Nat.lt_succ_of_le high)).mp runs
    obtain ⟨one, two, three, four⟩ := had_priority build.runcount (earlier.length + 1)
    interval_cases pid <;> omega
  obtain ⟨⟨low, high⟩, few⟩ := next_turn_left room
  refine ⟨room, isNext_minimal high ((ready _ low high).mpr few) fun q inside runs => ?_⟩
  have qLow := state.table.1.positive runs
  rw [current, prior _ low high, prior q qLow inside]
  exact next_turn_first room qLow inside ((ready q qLow inside).mp runs)

end Next

section Output

variable {n : Nat}

theorem priorityTurns_blocks (n : Nat) : priorityTurns n =
    [1, 2, 3, 4] ++ (List.replicate n [2, 4]).flatten ++ List.replicate n 1 ++
      List.replicate n 3 := by
  have pairs (m : Nat) : (List.range (2 * m)).map (fun i => if (4 + i) % 2 = 0 then 2 else 4) =
      (List.replicate m [2, 4]).flatten := by
    induction m with
    | zero => rfl
    | succ m ih =>
        have even : (4 + 2 * m) % 2 = 0 := by omega
        have odd : (4 + (2 * m + 1)) % 2 = 1 := by omega
        rw [List.replicate_succ', List.flatten_append, ← ih, Nat.mul_succ, List.range_succ,
          List.range_succ]
        simp [even, odd]
  have sum : 4 * n + 4 = 4 + 2 * n + n + n := by omega
  rw [priorityTurns, sum, List.range_add, List.range_add, List.range_add]
  simp only [List.map_append, List.map_map, ← pairs]
  congr 1
  · congr 1
    · congr 1
      refine List.map_congr_left fun i member => ?_
      have bound := List.mem_range.mp member
      simp only [Function.comp_apply, priorityTurn]
      split_ifs <;> omega
    · refine List.eq_replicate_iff.mpr ⟨by simp, fun turn member => ?_⟩
      obtain ⟨i, inside, rfl⟩ := List.mem_map.mp member
      have bound := List.mem_range.mp inside
      simp only [Function.comp_apply, priorityTurn]
      split_ifs <;> omega
  · refine List.eq_replicate_iff.mpr ⟨by simp, fun turn member => ?_⟩
    obtain ⟨i, inside, rfl⟩ := List.mem_map.mp member
    simp only [Function.comp_apply, priorityTurn]
    split_ifs <;> omega

theorem pairs_count (m pid : Nat) :
    (List.replicate m [2, 4]).flatten.count pid = if pid = 2 ∨ pid = 4 then m else 0 := by
  induction m with
  | zero => simp
  | succ m ih =>
      rw [List.replicate_succ', List.flatten_append, List.count_append, ih, List.flatten_singleton]
      by_cases two : pid = 2
      · subst two; simp
      · by_cases four : pid = 4
        · subst four; simp
        · simp [two, four, Ne.symm two, Ne.symm four]

theorem firsts_priority (runs : 1 ≤ n) : firsts n (priorityTurns n) = priorityOutput n := by
  obtain ⟨m, rfl⟩ : ∃ m, n = m + 1 := ⟨n - 1, by omega⟩
  have blocks : priorityTurns (m + 1) = [] ++ [1, 2, 3, 4] ++ (List.replicate m [2, 4]).flatten ++
      [2, 4] ++ List.replicate m 1 ++ [1] ++ List.replicate m 3 ++ [3] := by
    rw [priorityTurns_blocks]
    simp only [List.replicate_succ', List.flatten_append, List.flatten_singleton,
      List.append_assoc, List.nil_append]
  have once : ∀ pid ∈ [1, 2, 3, 4], [1, 2, 3, 4].count pid = 1 := by decide
  have pair {pid : Nat} (member : pid ∈ (List.replicate m [2, 4]).flatten) : pid = 2 ∨ pid = 4 := by
    obtain ⟨block, repeated, inside⟩ := List.mem_flatten.mp member
    rw [List.eq_of_mem_replicate repeated] at inside
    simpa using inside
  rw [blocks, priorityOutput, Nat.add_sub_cancel, firsts_dropped, firsts_kept, firsts_dropped,
    firsts_kept, firsts_dropped, firsts_kept, firsts_kept]
  · rfl
  · intro pid member
    rw [once pid member]
    simp
  · intro pid member
    rcases pair member with rfl | rfl <;> simp [pairs_count] <;> omega
  · intro pid member
    simp only [List.mem_cons, List.not_mem_nil, or_false] at member
    rcases member with rfl | rfl <;> simp [pairs_count]
  · intro pid member
    obtain rfl := List.eq_of_mem_replicate member
    simp [pairs_count]
    omega
  · intro pid member
    obtain rfl := List.mem_singleton.mp member
    simp [pairs_count]
  · intro pid member
    obtain rfl := List.eq_of_mem_replicate member
    simp [pairs_count, List.count_replicate]
    omega
  · intro pid member
    obtain rfl := List.mem_singleton.mp member
    simp [pairs_count, List.count_replicate]

end Output

section Run

variable {build : Build} {boot : Boot} {turns : List Nat} {s s' : System}

theorem Plays.priorities (algorithm : boot.schedulingAlgorithm = 2) (sync : build.Synchronized)
    (plays : Plays build Kernel.Schedules boot turns s) : PriorityState build boot s := by
  induction plays with
  | start => exact init_priorityState build boot
  | step _ next ih => exact ih.step algorithm sync next.toStep

theorem Plays.in_order (algorithm : boot.schedulingAlgorithm = 2) (locks : build.syncMethod = 1)
    (room : 4 * build.runcount ≤ 2000) (plays : Plays build Kernel.Schedules boot turns s) :
    turns <+: priorityTurns build.runcount := by
  induction plays with
  | start => exact ⟨_, (priorityTurns_blocks _).symm⟩
  | @step turns s s' before next ih =>
      have here := before.turnState locks room (safe_schedules algorithm)
      have state := before.priorities algorithm (.inl locks)
      obtain ⟨_, unclocked, next⟩ := next
      cases next with
      | clock => exact absurd rfl unclocked
      | access | call => rw [dispatched, List.append_nil]; exact ih
      | @dispatch k k' thread picked =>
          have some : k.SomeRunnable := (Kernel.schedules_priority_ends state.table.1
            (state.algorithm.trans algorithm) state.fits).mp ⟨k', picked⟩
          obtain ⟨inside, first⟩ := here.next_priority state ih some
          obtain ⟨pid, next, rfl⟩ := (state.schedules algorithm).mp picked
          obtain rfl := next.unique state.table.1.current.2 first
          exact prefix_append ih (priorityTurns_getElem inside)

end Run

theorem priority_order (build : Build) (locks : build.syncMethod = 1) (runs : 1 ≤ build.runcount)
    (room : 4 * build.runcount ≤ 2000) (boot : Boot) (algorithm : boot.schedulingAlgorithm = 2) :
    (∀ turns s, Plays build Kernel.Schedules boot turns s →
      (∃ log, Printed s log ∧ log <+: priorityOutput build.runcount) ∧
      (s.machine.kernel.SomeRunnable → ∃ s', Unclocked build Kernel.Schedules s s') ∧
      (¬ s.machine.kernel.SomeRunnable →
        s.machine.kernel.cursorpos = cell (4 * build.runcount) ∧
        ((List.range (4 * build.runcount)).map fun j => s.machine.kernel.cells (cell j)) =
          (priorityOutput build.runcount).map char)) ∧
    ¬ ∃ run : Nat → System, run 0 = init boot ∧
      ∀ i, Unclocked build Kernel.Schedules (run i) (run (i + 1)) := by
  refine ⟨fun turns s plays => ?_, no_endless_run locks room (safe_schedules algorithm)⟩
  have here := plays.turnState locks room (safe_schedules algorithm)
  have state := plays.priorities algorithm (.inl locks)
  have begins := firsts_mono (n := build.runcount) (plays.in_order algorithm locks room)
  rw [firsts_priority runs] at begins
  refine ⟨?_, fun left => ?_, fun done => ?_⟩
  · obtain ⟨log, printed, shown⟩ := here.shown
    exact ⟨log, printed, shown.trans begins⟩
  · obtain ⟨earlier, last, -, inTurn⟩ := here.inTurn
    obtain ⟨m, thread⟩ := s
    cases m with
    | user k => exact here.state.progress
    | scheduling k =>
        obtain ⟨k', picked⟩ := (Kernel.schedules_priority_ends state.table.1
          (state.algorithm.trans algorithm) state.fits).mpr left
        exact ⟨_, .dispatch picked⟩
    | halted k => exact inTurn.elim
  · obtain ⟨printed, length, cursor, -⟩ := here.finished done
    have whole : (priorityOutput build.runcount).length = 4 * build.runcount := by
      simp [priorityOutput]
      omega
    have same := begins.eq_of_length (length.trans whole.symm)
    have cells := printed.cells
    rw [length, same] at cells
    exact ⟨cursor, cells⟩

theorem priority_order_source : ∃ turns s,
    Plays ⟨1, 320⟩ Kernel.Schedules (bareBoot 2) turns s ∧
      s.machine.kernel.cursorpos = cell 1280 ∧
      ((List.range 1280).map fun j => s.machine.kernel.cells (cell j)) =
        (priorityOutput 320).map char := by
  have algorithm : (bareBoot 2).schedulingAlgorithm = 2 := rfl
  obtain ⟨turns, s, plays, done⟩ := @plays_finish ⟨1, 320⟩ (bareBoot 2) Kernel.Schedules rfl
    (by decide) (safe_schedules algorithm) fun turns k thread plays left => by
      have state := plays.priorities algorithm (.inl rfl)
      exact (Kernel.schedules_priority_ends state.table.1
        (state.algorithm.trans algorithm) state.fits).mpr left
  obtain ⟨cursor, cells⟩ := ((priority_order ⟨1, 320⟩ rfl (by decide) (by decide) (bareBoot 2)
    algorithm).1 turns s plays).2.2 done
  exact ⟨turns, s, plays, cursor, cells⟩

end App

end SchedOS
