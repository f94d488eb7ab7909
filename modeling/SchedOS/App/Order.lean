import SchedOS.App.Turns
import SchedOS.Kernel.RoundRobin
import SchedOS.Kernel.StrictOrder

set_option autoImplicit false

namespace SchedOS

namespace App

def lastNumber (algorithm : Int) (n pid : Nat) : Nat :=
  if algorithm = 0 then 4 * n - 4 + pid else pid * n

theorem sum_processes (f : Nat → Nat) :
    ∑ pid ∈ Finset.Ico 1 nprocs, f pid = f 1 + f 2 + f 3 + f 4 := by
  simp [nprocs, Finset.sum_Ico_succ_top]

section RoundRobin

def roundTurn (j : Nat) : Nat := j % 4 + 1

theorem had_round {pid : Nat} (low : 1 ≤ pid) (high : pid ≤ 4) (j : Nat) :
    had roundTurn pid j = (j + 4 - pid) / 4 := by
  induction j with
  | zero =>
      rw [had, Nat.count_zero]
      omega
  | succ j ih =>
      rw [had_succ, ih, roundTurn]
      split_ifs <;> omega

theorem output_round {n j : Nat} (bound : j < 4 * n) : (output 0 n)[j]? = some (j % 4 + 1) := by
  have flat : output 0 n = (List.range (4 * n)).map (fun i => i % 4 + 1) := by
    rw [output, if_pos rfl]
    clear bound
    induction n with
    | zero => rfl
    | succ n ih =>
        rw [List.replicate_succ', List.flatten_append, ih, Nat.mul_succ, List.range_add,
          List.map_append, List.map_map]
        congr 1
        have wraps (i : Nat) : (4 * n + i) % 4 = i % 4 := by omega
        simp [List.range_succ, wraps]
  rw [flat, List.getElem?_map, List.getElem?_range bound]
  rfl

theorem round_next {build : Build} {k : Kernel} {j : Nat} (table : k.WellFormed)
    (current : k.current = roundTurn j) (left : k.SomeRunnable)
    (runnable : ∀ pid, 1 ≤ pid → pid < nprocs →
      (k.Runnable pid ↔ had roundTurn pid (j + 1) ≤ build.runcount)) :
    Rotation.IsNext nprocs k.Runnable k.current (roundTurn (j + 1)) := by
  have bound : 1 ≤ roundTurn (j + 1) ∧ roundTurn (j + 1) ≤ 4 := by unfold roundTurn; omega
  obtain ⟨pid, low, high, ready⟩ := left
  have few := (runnable pid low (Nat.lt_succ_of_le high)).mp ready
  rw [had_round low high] at few
  refine ⟨Nat.lt_succ_of_le bound.2, ?_, fun other inside ready => ?_⟩
  · rw [runnable _ bound.1 (Nat.lt_succ_of_le bound.2), had_round bound.1 bound.2]
    unfold roundTurn
    omega
  · have positive := table.positive ready
    have wraps : ((j + 1) % 4 = j % 4 + 1 ∧ j % 4 < 3) ∨ ((j + 1) % 4 = 0 ∧ j % 4 = 3) := by omega
    rw [current]
    simp only [Rotation.gap, roundTurn, nprocs] at inside ⊢
    generalize (j + 1) % 4 = b at *
    generalize j % 4 = a at *
    rcases wraps with ⟨rfl, less⟩ | ⟨rfl, rfl⟩
    · have first : a + 1 + 1 + (5 - 1 - (a + 1)) = 5 := by omega
      rw [first]
      exact Nat.zero_le _
    · omega

theorem roundOrder (build : Build) : Order build 0 roundTurn := by
  refine ⟨rfl, fun k j table algorithm current left runnable => ?_, fun j low high left => ?_⟩
  · have next := round_next table current left runnable
    refine ⟨⟨Nat.succ_pos _, next.bound, next.stop⟩, fun k' => ?_⟩
    rw [Kernel.schedules_roundRobin table algorithm]
    constructor
    · rintro ⟨pid, other, rfl⟩
      rw [other.unique table.current.2 next]
    · rintro rfl
      exact ⟨_, next, rfl⟩
  · rw [had_round low (Nat.le_of_lt_succ high)] at left
    have place : ∑ pid ∈ Finset.Ico 1 nprocs, min (had roundTurn pid j) build.runcount = j := by
      have turns (pid : Nat) (low : 1 ≤ pid) (high : pid ≤ 4) := had_round low high j
      rw [sum_processes, turns 1, turns 2, turns 3, turns 4] <;> unfold roundTurn at * <;> omega
    rw [place]
    exact output_round (by unfold roundTurn at left; omega)

end RoundRobin

section Strict

variable {build : Build} {j : Nat}

def strictTurn (build : Build) (j : Nat) : Nat := j / (build.runcount + 1) + 1

theorem strictTurn_eq {pid : Nat} : strictTurn build j = pid + 1 ↔
    pid * (build.runcount + 1) ≤ j ∧ j < pid * (build.runcount + 1) + (build.runcount + 1) := by
  unfold strictTurn
  rw [Nat.add_right_cancel_iff, Nat.div_eq_iff (show 0 < build.runcount + 1 by omega)]
  omega

theorem had_strict (build : Build) (pid j : Nat) : had (strictTurn build) (pid + 1) j =
    min (j - pid * (build.runcount + 1)) (build.runcount + 1) := by
  induction j with
  | zero =>
      rw [had, Nat.count_zero]
      omega
  | succ j ih =>
      rw [had_succ, ih]
      split_ifs with here
      · rw [strictTurn_eq] at here
        omega
      · rw [strictTurn_eq] at here
        omega

theorem output_strict {n pid i : Nat} (bound : pid < 4) (inside : i < n) :
    (output 1 n)[pid * n + i]? = some (pid + 1) := by
  rw [output, if_neg (by decide)]
  interval_cases pid <;> grind

theorem strict_next {k : Kernel} (current : k.current = strictTurn build j)
    (bound : k.current < nprocs) (left : k.SomeRunnable)
    (runnable : ∀ pid, 1 ≤ pid → pid < nprocs →
      (k.Runnable pid ↔ had (strictTurn build) pid (j + 1) ≤ build.runcount)) :
    strictTurn build (j + 1) < nprocs ∧ k.Runnable (strictTurn build (j + 1)) ∧
      k.nextStrict k.current = strictTurn build (j + 1) := by
  obtain ⟨c, here⟩ : ∃ c, strictTurn build j = c + 1 := ⟨_, rfl⟩
  rw [here] at current
  rw [strictTurn_eq] at here
  have mine := runnable (c + 1) (Nat.succ_pos c) (current ▸ bound)
  rw [had_strict] at mine
  unfold Kernel.nextStrict
  rw [current]
  by_cases more : k.Runnable (c + 1)
  · -- The process has turns left and goes on.
    have stays : strictTurn build (j + 1) = c + 1 := by
      rw [strictTurn_eq]
      have := mine.mp more
      omega
    rw [stays, if_neg (not_not.mpr more)]
    exact ⟨current ▸ bound, more, rfl⟩
  · have ended : j + 1 = (c + 1) * (build.runcount + 1) := by
      have := mt mine.mpr more
      rw [Nat.succ_mul]
      omega
    have moves : strictTurn build (j + 1) = c + 1 + 1 := by
      rw [strictTurn_eq]
      omega
    obtain ⟨pid, low, high, ready⟩ := left
    obtain ⟨p, rfl⟩ : ∃ p, pid = p + 1 := ⟨pid - 1, by omega⟩
    have few := (runnable (p + 1) low (Nat.lt_succ_of_le high)).mp ready
    rw [had_strict, ended] at few
    have later : c + 1 ≤ p := by
      by_contra before
      have := Nat.mul_le_mul_right (build.runcount + 1) (show p + 1 ≤ c + 1 by omega)
      rw [Nat.succ_mul p] at this
      omega
    have inside : c + 1 + 1 < nprocs := by simp only [nprocs]; omega
    rw [moves, if_pos more]
    refine ⟨inside, ?_, rfl⟩
    rw [runnable _ (Nat.succ_pos _) inside, had_strict, ended]
    omega

theorem strict_place {pid : Nat} (bound : pid < 4) (here : strictTurn build j = pid + 1)
    (left : had (strictTurn build) (pid + 1) j < build.runcount) :
    ∑ p ∈ Finset.Ico 1 nprocs, min (had (strictTurn build) p j) build.runcount =
      pid * build.runcount + (j - pid * (build.runcount + 1)) := by
  have turns (p : Nat) := had_strict build p j
  rw [sum_processes, turns 0, turns 1, turns 2, turns 3]
  rw [strictTurn_eq] at here
  rw [had_strict] at left
  interval_cases pid <;> omega

theorem strictOrder (build : Build) : Order build 1 (strictTurn build) := by
  refine ⟨by simp [strictTurn], fun k j table algorithm current left runnable => ?_,
    fun j _ high left => ?_⟩
  · obtain ⟨inside, ready, next⟩ := strict_next current table.current.2 left runnable
    refine ⟨⟨Nat.succ_pos _, inside, ready⟩, fun k' => ?_⟩
    rw [Kernel.schedules_strict algorithm, table.pid, next]
  · obtain ⟨pid, here⟩ : ∃ pid, strictTurn build j = pid + 1 := ⟨_, rfl⟩
    rw [here] at high left ⊢
    have bound : pid < 4 := Nat.lt_of_succ_lt_succ high
    rw [strict_place bound here left]
    apply output_strict bound
    rw [had_strict] at left
    omega

end Strict

section Output

variable {build : Build} {boot : Boot} {turn : Nat → Nat} {s : System} {n : Nat}

theorem output_length (algorithm : Int) (n : Nat) : (output algorithm n).length = 4 * n := by
  unfold output
  split_ifs
  · simp [Nat.mul_comm]
  · simp only [List.length_append, List.length_replicate]
    omega

theorem output_last {algorithm : Int} (known : algorithm = 0 ∨ algorithm = 1) (runs : 1 ≤ n)
    {pid : Nat} (low : 1 ≤ pid) (high : pid ≤ 4) :
    (output algorithm n)[lastNumber algorithm n pid - 1]? = some pid ∧
      ∀ j, lastNumber algorithm n pid ≤ j → j < 4 * n → (output algorithm n)[j]? ≠ some pid := by
  rcases known with rfl | rfl
  · rw [lastNumber, if_pos rfl]
    constructor
    · rw [output_round (by omega), Option.some_inj]
      omega
    · intro j later bound
      rw [output_round bound, Ne, Option.some_inj]
      omega
  · rw [lastNumber, if_neg (by decide)]
    obtain ⟨p, rfl⟩ : ∃ p, pid = p + 1 := ⟨pid - 1, by omega⟩
    constructor
    · have place : (p + 1) * n - 1 = p * n + (n - 1) := by
        rw [Nat.succ_mul]
        omega
      rw [place]
      exact output_strict (by omega) (by omega)
    · intro j later bound
      have place : j = j / n * n + j % n := by
        rw [Nat.mul_comm]
        exact (Nat.div_add_mod j n).symm
      have block : j / n < 4 := (Nat.div_lt_iff_lt_mul (by omega)).mpr bound
      have beyond : p + 1 ≤ j / n := (Nat.le_div_iff_mul_le (by omega)).mpr later
      rw [place, output_strict block (Nat.mod_lt _ (by omega)), Ne, Option.some_inj]
      omega

theorem OrderState.finished (here : OrderState build boot turn s)
    (done : ¬ s.machine.kernel.SomeRunnable) :
    Printed s (output boot.schedulingAlgorithm build.runcount) ∧
      s.machine.kernel.cursorpos = cell (4 * build.runcount) := by
  obtain ⟨state, -, log, printed, shown⟩ := here
  obtain ⟨outside, all⟩ := state.finished fun pid low high ready =>
    done ⟨pid, low, Nat.le_of_lt_succ high, ready⟩
  have length := printed.length_eq all
  have whole : log = output boot.schedulingAlgorithm build.runcount :=
    shown.eq_of_length (by rw [length, output_length])
  rw [← length]
  exact ⟨whole ▸ printed, printed.between outside⟩

theorem working_finishes (locks : build.syncMethod = 1) (room : 4 * build.runcount ≤ 2000)
    (order : Order build boot.schedulingAlgorithm turn) :
    ∃ s, Relation.ReflTransGen (Working build) (init boot) s ∧ OrderState build boot turn s ∧
      ¬ s.machine.kernel.SomeRunnable := by
  apply Reach.of_rank (System.toGo build) _ (init_orderState order)
  intro s here
  by_cases left : s.machine.kernel.SomeRunnable
  · obtain ⟨s', step⟩ := working_progress order here left
    exact .inr ⟨s', step, here.step locks room order step, working_less locks here step⟩
  · exact .inl left

end Output

theorem output_order (build : Build) (locks : build.syncMethod = 1) (runs : 1 ≤ build.runcount)
    (room : 4 * build.runcount ≤ 2000) (boot : Boot)
    (algorithm : boot.schedulingAlgorithm = 0 ∨ boot.schedulingAlgorithm = 1) :
    (∀ s, Relation.ReflTransGen (Working build) (init boot) s →
      (∃ log, Printed s log ∧ log <+: output boot.schedulingAlgorithm build.runcount) ∧
      (s.machine.kernel.SomeRunnable → ∃ s', Working build s s') ∧
      (¬ s.machine.kernel.SomeRunnable →
        s.machine.kernel.cursorpos = cell (4 * build.runcount) ∧
        ((List.range (4 * build.runcount)).map fun j => s.machine.kernel.cells (cell j)) =
          (output boot.schedulingAlgorithm build.runcount).map char ∧
        ∀ pid, 1 ≤ pid → pid ≤ 4 →
          s.machine.kernel.cells
            (cell (lastNumber boot.schedulingAlgorithm build.runcount pid - 1)) = char pid ∧
          ∀ j, lastNumber boot.schedulingAlgorithm build.runcount pid ≤ j →
            j < 4 * build.runcount → s.machine.kernel.cells (cell j) ≠ char pid)) ∧
    ¬ ∃ run : Nat → System, run 0 = init boot ∧ ∀ i, Working build (run i) (run (i + 1)) := by
  obtain ⟨turn, order⟩ : ∃ turn, Order build boot.schedulingAlgorithm turn := by
    rcases algorithm with zero | one
    · exact ⟨_, zero ▸ roundOrder build⟩
    · exact ⟨_, one ▸ strictOrder build⟩
  constructor
  · intro s reaches
    have here := Reach.invariant reaches (OrderState build boot turn) (init_orderState order)
      fun _ _ before step => before.step locks room order step
    refine ⟨here.shown, working_progress order here, fun done => ?_⟩
    obtain ⟨printed, cursor⟩ := here.finished done
    have cells := printed.cells
    rw [output_length] at cells
    refine ⟨cursor, cells, fun pid low high => ?_⟩
    obtain ⟨last, later⟩ := output_last algorithm runs low high
    refine ⟨printed.written _ _ last, fun j after bound same => ?_⟩
    obtain ⟨other, entry⟩ : ∃ other,
        (output boot.schedulingAlgorithm build.runcount)[j]? = some other :=
      ⟨_, List.getElem?_eq_getElem (by rw [output_length]; exact bound)⟩
    have author := printed.authors other (List.mem_of_getElem? entry)
    have same := char_inj author ⟨low, Nat.lt_succ_of_le high⟩
      ((printed.written j other entry).symm.trans same)
    exact later j after bound (same ▸ entry)
  · rintro ⟨run, first, steps⟩
    have here (i : Nat) : OrderState build boot turn (run i) ∧
        (run i).toGo build + i ≤ (run 0).toGo build := by
      induction i with
      | zero => exact ⟨first ▸ init_orderState order, le_rfl⟩
      | succ i ih =>
          have less := working_less locks ih.1 (steps i)
          exact ⟨ih.1.step locks room order (steps i), by omega⟩
    have late := (here ((run 0).toGo build + 1)).2
    omega

theorem output_order_answers :
    (∃ s, Relation.ReflTransGen (Working ⟨1, 320⟩) (init (bareBoot 0)) s ∧
      s.machine.kernel.cells (cell 1276) = char 1 ∧ s.machine.kernel.cells (cell 1279) = char 4) ∧
    ∃ s, Relation.ReflTransGen (Working ⟨1, 320⟩) (init (bareBoot 1)) s ∧
      s.machine.kernel.cells (cell 319) = char 1 ∧ s.machine.kernel.cells (cell 1279) = char 4 := by
  constructor
  · obtain ⟨s, reaches, -, done⟩ :=
      @working_finishes ⟨1, 320⟩ (bareBoot 0) _ rfl (by decide) (roundOrder _)
    have shown := (((output_order ⟨1, 320⟩ rfl (by decide) (by decide) (bareBoot 0) (.inl rfl)).1 s
      reaches).2.2 done).2.2
    exact ⟨s, reaches, (shown 1 (by decide) (by decide)).1, (shown 4 (by decide) (by decide)).1⟩
  · obtain ⟨s, reaches, -, done⟩ :=
      @working_finishes ⟨1, 320⟩ (bareBoot 1) _ rfl (by decide) (strictOrder _)
    have shown := (((output_order ⟨1, 320⟩ rfl (by decide) (by decide) (bareBoot 1) (.inr rfl)).1 s
      reaches).2.2 done).2.2
    exact ⟨s, reaches, (shown 1 (by decide) (by decide)).1, (shown 4 (by decide) (by decide)).1⟩

end App

end SchedOS
