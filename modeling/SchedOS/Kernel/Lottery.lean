import SchedOS.Kernel.Draw
import SchedOS.Kernel.History
import SchedOS.Kernel.RoundRobin

set_option autoImplicit false

namespace SchedOS

namespace Kernel

variable {k k' : Kernel}

def SoldToRunnable (k : Kernel) : Prop :=
  ∃ ticket, ticket < k.numTickets ∧ k.Runnable (k.tickets ticket)

section Draws

variable {g : Rngs}

theorem winnerIndex_draw (seed : InPeriod g.state) :
    k.winnerIndex g.random.1 = 10000 * g.random.2.state / modulus % k.numTickets := by
  have next := (Rngs.random_spec seed).1
  have nonneg : 0 ≤ 10000 * g.random.2.state / modulus :=
    Int.ediv_nonneg (by have := next.1; omega) (by decide)
  rw [winnerIndex, Rngs.random_value, truncate_draw next, Int.tmod_eq_emod_of_nonneg nonneg]

theorem winnerIndex_range (seed : InPeriod g.state) (sold : 0 < k.numTickets) :
    0 ≤ k.winnerIndex g.random.1 ∧ k.winnerIndex g.random.1 < k.numTickets := by
  rw [winnerIndex_draw seed]
  exact ⟨Int.emod_nonneg _ (by omega), Int.emod_lt_of_pos _ (by omega)⟩

theorem index_drawn {index : Nat} (bound : index < 10000) :
    ∃ x, InPeriod x ∧ 10000 * x / modulus = index := by
  refine ⟨index * modulus / 10000 + 1, ?_, ?_⟩ <;> simp only [InPeriod, modulus] <;> omega

theorem ticket_drawn (seed : InPeriod g.state) (room : k.numTickets ≤ maxTickets) {ticket : Nat}
    (sold : ticket < k.numTickets) :
    ∃ draws, draws < 2147483646 ∧ k.winner (g.after draws) = k.tickets ticket := by
  have small : ticket < 10000 := by simp only [maxTickets] at room; omega
  obtain ⟨x, wanted, index⟩ := index_drawn small
  obtain ⟨draws, most, reached⟩ := Rngs.after_reaches seed wanted
  rw [Rngs.after_succ] at reached
  refine ⟨draws, most, ?_⟩
  have drawn : k.winnerIndex (g.after draws).random.1 = ticket := by
    rw [winnerIndex_draw (Rngs.after_seed seed draws), reached, index,
      Int.emod_eq_of_lt (by omega) (by omega)]
  rw [winner, drawn, Int.toNat_natCast]

end Draws

theorem lottery_within (times : Nat → Int) {g : Rngs} {draws : Nat}
    (won : k.Runnable (k.winner (g.after draws))) :
    ∃ k', Loop.run lotteryPass (draws + 1) (k.retimed times g) = some k' := by
  -- Over the draws before the winning one; an earlier win only ends the loop earlier.
  induction draws generalizing g with
  | zero => exact ⟨_, Loop.run_leave (lottery_leave won) 0⟩
  | succ draws ih =>
      by_cases first : k.Runnable (k.winner g)
      · exact ⟨_, Loop.run_leave (lottery_leave first) _⟩
      · rw [Loop.run_again (lottery_again first)]
        apply ih
        rwa [Rngs.after_random]

theorem lottery_leaves (ended : Loop.Leaves lotteryPass k k') :
    ∃ draws, k.Runnable (k.winner (k.rngs.after draws)) ∧
      k' = (k.retimed k.times (k.rngs.after (draws + 1))).run (k.winner (k.rngs.after draws)) := by
  let drawing := fun s : Kernel => ∃ draws, s = k.retimed k.times (k.rngs.after draws)
  let won := fun final : Kernel => ∃ draws, k.Runnable (k.winner (k.rngs.after draws)) ∧
    final = (k.retimed k.times (k.rngs.after (draws + 1))).run (k.winner (k.rngs.after draws))
  refine ended.post drawing won ⟨0, rfl⟩ ?_ ?_
  · rintro _ next ⟨draws, rfl⟩ pass
    by_cases won : k.Runnable (k.winner (k.rngs.after draws))
    · rw [lottery_leave won] at pass; cases pass
    · rw [lottery_again won, ← Rngs.after_succ] at pass
      cases pass
      exact ⟨_, rfl⟩
  · rintro _ final ⟨draws, rfl⟩ pass
    by_cases won : k.Runnable (k.winner (k.rngs.after draws))
    · rw [lottery_leave won, ← Rngs.after_succ] at pass
      cases pass
      exact ⟨draws, won, rfl⟩
    · rw [lottery_again won] at pass; cases pass

theorem winner_sold (sold : 0 < k.numTickets) (g : Rngs) :
    ∃ ticket, ticket < k.numTickets ∧ k.tickets ticket = k.winner g :=
  ⟨_, winnerIndex_bound sold, rfl⟩

theorem lottery_ends (seed : InPeriod k.rngs.state) (sold : 0 < k.numTickets)
    (room : k.numTickets ≤ maxTickets) :
    (k.SoldToRunnable ↔ ∃ k', Loop.Leaves lotteryPass k k') ∧
      ∀ k', Loop.Leaves lotteryPass k k' → Loop.run lotteryPass 2147483646 k = some k' := by
  have ends (holder : k.SoldToRunnable) : ∃ k', Loop.run lotteryPass 2147483646 k = some k' := by
    obtain ⟨ticket, bound, runnable⟩ := holder
    obtain ⟨draws, most, drawn⟩ := ticket_drawn seed room bound
    obtain ⟨k', ended⟩ := lottery_within k.times (drawn ▸ runnable)
    exact ⟨k', Loop.run_mono most k k' ended⟩
  have held (k' : Kernel) (ended : Loop.Leaves lotteryPass k k') : k.SoldToRunnable := by
    obtain ⟨draws, won, -⟩ := lottery_leaves ended
    obtain ⟨ticket, bound, holder⟩ := winner_sold sold (k.rngs.after draws)
    exact ⟨ticket, bound, holder ▸ won⟩
  refine ⟨⟨fun holder => ?_, fun ⟨k', ended⟩ => held k' ended⟩, fun k' ended => ?_⟩
  · obtain ⟨k', ended⟩ := ends holder
    exact ⟨k', _, ended⟩
  · obtain ⟨other, within⟩ := ends (held k' ended)
    have same : other = k' := Loop.Leaves.unique ⟨_, within⟩ ended
    rw [within, same]

theorem schedule_lottery (algorithm : k.schedulingAlgorithm = 4) (enough : 4 ≤ k.numTickets)
    (fuel : Nat) : k.schedule fuel = Loop.run lotteryPass fuel k := by
  have many : ¬ k.numTickets < nprocs - 1 := by simp only [nprocs]; omega
  simp [schedule, algorithm, many]

theorem schedules_lottery (algorithm : k.schedulingAlgorithm = 4) (enough : 4 ≤ k.numTickets) :
    k.Schedules k' ↔ Loop.Leaves lotteryPass k k' := by
  simp only [Schedules, schedule_lottery algorithm enough]
  rfl

theorem schedules_unsold (table : k.WellFormed) (algorithm : k.schedulingAlgorithm = 4)
    (few : k.numTickets < 4) : k.Schedules k' ↔ Loop.Leaves k.roundRobinPass k.current k' := by
  have unsold : k.numTickets < nprocs - 1 := few
  simp only [Schedules, schedule, algorithm, if_pos unsold, table.pid]
  rfl

theorem schedules_seed (table : k.WellFormed) (algorithm : k.schedulingAlgorithm = 4)
    (seed : InPeriod k.rngs.state) (picked : k.Schedules k') : InPeriod k'.rngs.state := by
  rcases Nat.lt_or_ge k.numTickets 4 with few | enough
  · obtain ⟨pid, -, rfl⟩ := (roundRobin_leaves table).mp
      ((schedules_unsold table algorithm few).mp picked)
    exact seed
  · obtain ⟨draws, -, rfl⟩ := lottery_leaves ((schedules_lottery algorithm enough).mp picked)
    exact Rngs.after_seed seed (draws + 1)

theorem schedules_lottery_ends (table : k.WellFormed) (algorithm : k.schedulingAlgorithm = 4)
    (seed : InPeriod k.rngs.state) (room : k.numTickets ≤ maxTickets) :
    (∃ k', k.Schedules k') ↔
      (k.numTickets < 4 ∧ k.SomeRunnable) ∨ (4 ≤ k.numTickets ∧ k.SoldToRunnable) := by
  rcases Nat.lt_or_ge k.numTickets 4 with few | enough
  · have late : ¬ 4 ≤ k.numTickets := Nat.not_le.mpr few
    simp only [schedules_unsold table algorithm few, roundRobin_ends table, few, late, true_and,
      false_and, or_false]
  · have late : ¬ k.numTickets < 4 := Nat.not_lt.mpr enough
    simp only [schedules_lottery algorithm enough, enough, late, true_and, false_and, false_or]
    exact (lottery_ends seed (by omega) room).1.symm

end Kernel

-- `PlantSeeds(1)` leaves the default stream at 1.
theorem plantSeeds_state : (Rngs.static.plantSeeds 1).state = 1 := by
  have kept (js : List Nat) (positive : ∀ j ∈ js, 1 ≤ j) (g : Rngs) :
      (js.foldl Rngs.plantNext g).stream = g.stream ∧
        (js.foldl Rngs.plantNext g).seed 0 = g.seed 0 := by
    induction js generalizing g with
    | nil => exact ⟨rfl, rfl⟩
    | cons j js ih =>
        obtain ⟨low, rest⟩ := List.forall_mem_cons.mp positive
        obtain ⟨stream, seed⟩ := ih rest (g.plantNext j)
        refine ⟨stream, seed.trans ?_⟩
        exact Function.update_of_ne (by omega) _ _
  have range : ∀ j ∈ List.range' 1 (streams - 1), 1 ≤ j := fun j member =>
    (List.mem_range'_1.mp member).1
  simp only [Rngs.plantSeeds, Rngs.state]
  generalize List.range' 1 (streams - 1) = js at range
  rw [(kept js range _).1]
  exact (kept js range _).2

structure LotteryState (m : Machine) : Prop where
  table : m.WellFormed
  algorithm : m.kernel.schedulingAlgorithm = 4
  seed : InPeriod m.kernel.rngs.state
  room : m.kernel.numTickets ≤ maxTickets

theorem start_lotteryState {boot : Boot} (algorithm : boot.schedulingAlgorithm = 4) :
    LotteryState (start boot) := by
  refine ⟨start_wellFormed boot, algorithm, ?_, Nat.zero_le _⟩
  rw [start_user, Machine.kernel, boot.kernel_rngs, plantSeeds_state]
  exact ⟨by decide, by decide⟩

theorem LotteryState.step {m m' : Machine} {label : Label} (before : LotteryState m)
    (step : Step Kernel.Schedules m label m') : LotteryState m' := by
  obtain ⟨table, algorithm, seed, room⟩ := before
  have tested : m.kernel.schedulingAlgorithm ≠ 1 := by rw [algorithm]; decide
  obtain ⟨tableAfter, algorithmAfter⟩ := step_kept (by decide) table algorithm step
  refine ⟨tableAfter, algorithmAfter, ?_, ?_⟩
  · cases step with
    | interrupt k reg => rw [interrupt_rngs]; exact seed
    | dispatch picked => exact Kernel.schedules_seed table.1 algorithm seed picked
    | store => exact seed
  · cases step with
    | interrupt k reg =>
        rw [(interrupt_tickets reg k).1]
        simp only [Machine.kernel] at room
        split_ifs <;> omega
    | dispatch picked =>
        obtain ⟨pid, -, -, times, rngs, rfl⟩ := Kernel.schedules_picks table.1 tested picked
        exact room
    | store => exact room

theorem runs_lotteryState {boot : Boot} (algorithm : boot.schedulingAlgorithm = 4)
    {trace : List (Label × Machine)} {last : Machine} (run : Runs boot trace last) :
    LotteryState last :=
  run.invariant LotteryState (start_lotteryState algorithm) fun _ _ _ before step =>
    before.step step

def Kernel.seeded (k : Kernel) (x : Int) : Kernel :=
  { k with rngs := { k.rngs with seed := Function.update k.rngs.seed k.rngs.stream x } }

theorem lottery_termination (boot : Boot) (algorithm : boot.schedulingAlgorithm = 4)
    (trace : List (Label × Machine)) (k : Kernel) (run : Runs boot trace (.scheduling k))
    (enough : 4 ≤ k.numTickets) (x : Int) (seed : 1 ≤ x ∧ x ≤ 2147483646) :
    ((∃ k', (k.seeded x).Schedules k') ↔
      ∃ ticket, ticket < k.numTickets ∧ k.Runnable (k.tickets ticket)) ∧
    (∀ k', (k.seeded x).Schedules k' → k.Runnable k'.current ∧
      (∃ ticket, ticket < k.numTickets ∧ k.tickets ticket = k'.current) ∧
      (k.seeded x).schedule 2147483646 = some k') ∧
    ∀ draws, let g := (k.seeded x).rngs.after draws
      (1 ≤ g.state ∧ g.state ≤ 2147483646) ∧ SplitFits multiplier g.state ∧
      0 ≤ k.winnerIndex g.random.1 ∧ k.winnerIndex g.random.1 < k.numTickets := by
  have here := runs_lotteryState algorithm run
  have same : (k.seeded x).schedulingAlgorithm = 4 := here.algorithm
  have state : (k.seeded x).rngs.state = x := by simp [Kernel.seeded, Rngs.state]
  have period : InPeriod (k.seeded x).rngs.state := by rw [state]; exact seed
  have positive : 0 < k.numTickets := by omega
  have scheduled (k' : Kernel) : (k.seeded x).Schedules k' ↔
      Loop.Leaves Kernel.lotteryPass (k.seeded x) k' := Kernel.schedules_lottery same enough
  obtain ⟨ends, within⟩ := Kernel.lottery_ends period positive here.room
  refine ⟨?_, fun k' picked => ?_, fun draws => ?_⟩
  · simp only [scheduled]
    exact ends.symm
  · have ended := (scheduled k').mp picked
    obtain ⟨draws, won, rfl⟩ := Kernel.lottery_leaves ended
    refine ⟨won, Kernel.winner_sold (k := k) positive _, ?_⟩
    rw [Kernel.schedule_lottery same enough]
    exact within _ ended
  · have drawn := Rngs.after_seed period draws
    exact ⟨drawn, split_fits (by decide) (by decide) (by decide) drawn,
      Kernel.winnerIndex_range drawn positive⟩

private def bought : Nat → Kernel
  | 0 => (bareBoot 4).kernel
  | n + 1 => (interrupt (trap 53 0) (bought n)).kernel

private structure Bought (k : Kernel) (n : Nat) : Prop where
  current : k.current = 1
  pid : (k.procArray 1).pPid = 1
  runnable : ∀ pid, 1 ≤ pid → pid ≤ 4 → k.Runnable pid
  number : k.numTickets = n
  holder : ∀ ticket, ticket < n → k.tickets ticket = 1

private theorem bought_spec (n : Nat) (room : n ≤ maxTickets) : Bought (bought n) n := by
  induction n with
  | zero =>
      refine ⟨rfl, rfl, fun pid low high => ?_, rfl, fun ticket less => by omega⟩
      exact congrArg Process.pState ((bareBoot 4).kernel_proc low (Nat.lt_succ_of_le high))
  | succ n ih =>
      have before := ih (Nat.le_of_succ_le room)
      have sells : (trap 53 0).service = .user4 := rfl
      obtain ⟨number, tickets⟩ := interrupt_tickets (trap 53 0) (bought n)
      rw [before.number, if_pos ⟨sells, room⟩] at number
      rw [before.number, if_pos ⟨sells, room⟩, before.current, before.pid] at tickets
      refine ⟨(interrupt_current _ _).trans before.current, ?_, fun pid low high => ?_, number,
        fun ticket less => ?_⟩
      · rw [bought, ← before.current, interrupt_proc_current, served_pid, before.current]
        exact before.pid
      · unfold Kernel.Runnable
        rw [bought, interrupt_state, if_neg fun both => absurd both.2 (by decide)]
        exact before.runnable pid low high
      · rw [bought, tickets]
        rcases Nat.lt_succ_iff_lt_or_eq.mp less with old | rfl
        · rw [Function.update_of_ne (by omega)]
          exact before.holder ticket old
        · exact Function.update_self ..

private theorem buy_step (n : Nat) : Step Kernel.Schedules (.user (bought n))
    (.interrupt (bought n).current (trap 53 0)) (.user (bought (n + 1))) :=
  step_returns (bought n) (by decide)

private def leftOff (intno : BitVec 32) : Kernel := (interrupt (trap intno 0) (bought 4)).kernel

private theorem leftOff_run (intno : BitVec 32)
    (leaves : (trap intno 0).service ∈ [Service.yield, .exit, .clock]) :
    Runs (bareBoot 4)
      [(.interrupt 1 (trap 53 0), .user (bought 1)), (.interrupt 1 (trap 53 0), .user (bought 2)),
        (.interrupt 1 (trap 53 0), .user (bought 3)), (.interrupt 1 (trap 53 0), .user (bought 4)),
        (.interrupt 1 (trap intno 0), .scheduling (leftOff intno))] (.scheduling (leftOff intno)) :=
  .cons (buy_step 0) <| .cons (buy_step 1) <| .cons (buy_step 2) <| .cons (buy_step 3) <|
    .cons (step_schedules (bought 4) leaves) <| .nil _

private theorem leftOff_tickets (intno : BitVec 32) (other : (trap intno 0).service ≠ .user4) :
    (leftOff intno).numTickets = 4 ∧
      ∀ ticket, ticket < 4 → (leftOff intno).tickets ticket = 1 := by
  obtain ⟨number, tickets⟩ := interrupt_tickets (trap intno 0) (bought 4)
  rw [if_neg fun both => other both.1] at number tickets
  have before := bought_spec 4 (by decide)
  exact ⟨number.trans before.number, fun ticket less =>
    (congrFun tickets ticket).trans (before.holder ticket less)⟩

private theorem leftOff_runnable {intno : BitVec 32} {pid : Nat} (low : 1 ≤ pid) (high : pid ≤ 4) :
    (leftOff intno).Runnable pid ↔ ¬ (pid = 1 ∧ (trap intno 0).service = .exit) := by
  have before := bought_spec 4 (by decide)
  have state := interrupt_state (trap intno 0) (bought 4) pid
  rw [before.current, before.runnable pid low high] at state
  unfold Kernel.Runnable leftOff
  rw [state]
  split_ifs with left
  · exact iff_of_false (by decide) (not_not.mpr left)
  · exact iff_of_true rfl left

private theorem leftOff_sold : (leftOff 48).SoldToRunnable := by
  obtain ⟨number, holder⟩ := leftOff_tickets 48 (by decide)
  have runnable : (leftOff 48).Runnable 1 :=
    (leftOff_runnable (by decide) (by decide)).mpr (by decide)
  exact ⟨0, by rw [number]; decide, by rw [holder 0 (by decide)]; exact runnable⟩

theorem lottery_termination_yield :
    ∃ k', ((leftOff 48).seeded 399268537).Schedules k' := by
  have number := (leftOff_tickets 48 (by decide)).1
  exact (lottery_termination (bareBoot 4) rfl _ _ (leftOff_run 48 (by decide)) number.ge 399268537
    (by decide)).1.mpr leftOff_sold

theorem lottery_conserves_work (boot : Boot) (algorithm : boot.schedulingAlgorithm = 4)
    (trace : List (Label × Machine)) (last : Machine) (run : Runs boot trace last) :
    ∀ x ∈ trace, ∀ k, x.2 = .scheduling k →
      (k.WorkConserving ↔ (k.SomeRunnable → k.numTickets < 4 ∨ k.SoldToRunnable)) := by
  intro x member k entered
  have here := run.always LotteryState (start_lotteryState algorithm)
    (fun _ _ _ before step => before.step step) x member
  rw [entered] at here
  have table : k.WellFormed := here.table.1
  have same : k.schedulingAlgorithm = 4 := here.algorithm
  rw [Kernel.workConserving_iff table (by rw [same]; decide),
    Kernel.schedules_lottery_ends table same here.seed here.room]
  constructor
  · intro ends some
    exact (ends some).imp And.left And.right
  · intro ends some
    rcases Nat.lt_or_ge k.numTickets 4 with few | enough
    · exact .inl ⟨few, some⟩
    · exact .inr ⟨enough, (ends some).resolve_left (Nat.not_lt.mpr enough)⟩

theorem lottery_conserves_work_yield : (leftOff 48).WorkConserving := by
  apply (lottery_conserves_work (bareBoot 4) rfl _ _ (leftOff_run 48 (by decide)) _
    (List.mem_of_getLast? rfl) _ rfl).mpr
  exact fun _ => .inr leftOff_sold

theorem lottery_conserves_work_fails : ¬ ∀ boot : Boot, boot.schedulingAlgorithm = 4 →
    ∀ trace last, Runs boot trace last →
      ∀ x ∈ trace, ∀ k, x.2 = .scheduling k → k.WorkConserving := by
  intro conserves
  have run := leftOff_run 49 (by decide)
  have conserving := conserves (bareBoot 4) rfl _ _ run _ (List.mem_of_getLast? rfl) _ rfl
  have here := runs_lotteryState rfl run
  obtain ⟨number, holder⟩ := leftOff_tickets 49 (by decide)
  have others : (leftOff 49).Runnable 2 :=
    (leftOff_runnable (by decide) (by decide)).mpr (by decide)
  have ends := (Kernel.schedules_lottery_ends here.table.1 here.algorithm here.seed here.room).mp
    (conserving.ends ⟨2, by decide, by decide, others⟩)
  rcases ends with ⟨few, -⟩ | ⟨-, ticket, bound, runnable⟩
  · exact absurd number.ge (Nat.not_le.mpr few)
  · have sold : ticket < 4 := number ▸ bound
    have gone : (leftOff 49).Runnable 1 := holder ticket sold ▸ runnable
    exact (leftOff_runnable (by decide) (by decide)).mp gone ⟨rfl, by decide⟩

end SchedOS
