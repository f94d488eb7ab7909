import SchedOS.Kernel.Lottery
import SchedOS.Shared.Quantise

set_option autoImplicit false

namespace SchedOS

namespace Kernel

def drawnIndex (k : Kernel) : Nat := (k.winnerIndex k.rngs.random.1).toNat

theorem getWinner_eq (k : Kernel) :
    k.getWinner = (k.tickets k.drawnIndex, { k with rngs := k.rngs.random.2 }) := rfl

def holdings (k : Kernel) (pid : Nat) : Finset Nat :=
  {ticket ∈ Finset.range k.numTickets | k.tickets ticket = pid}

end Kernel

/-- Calls of `get_winner()` between which nothing else draws and no ticket is sold. -/
structure Consecutive (calls : Nat → Kernel) (number : Nat) : Prop where
  draws : ∀ call, call + 1 < number → (calls (call + 1)).rngs = (calls call).getWinner.2.rngs
  table : ∀ call, call < number → (calls call).numTickets = (calls 0).numTickets ∧
    (calls call).tickets = (calls 0).tickets

def timesDrawn (calls : Nat → Kernel) (number ticket : Nat) : Nat :=
  Nat.count (fun call => (calls call).drawnIndex = ticket) number

def wins (calls : Nat → Kernel) (number pid : Nat) : Nat :=
  Nat.count (fun call => (calls call).getWinner.1 = pid) number

theorem consecutive_iterate (k : Kernel) (number : Nat) :
    Consecutive (fun call => (fun k => k.getWinner.2)^[call] k) number := by
  refine ⟨fun call _ => ?_, fun call _ => ?_⟩
  · simp only [Function.iterate_succ_apply']
  · induction call with
    | zero => exact ⟨rfl, rfl⟩
    | succ call ih =>
        simp only [Function.iterate_succ_apply']
        exact ih (by omega)

section Period

variable {calls : Nat → Kernel} {number : Nat}

theorem Consecutive.rngs (consecutive : Consecutive calls number) {call : Nat}
    (bound : call < number) : (calls call).rngs = (calls 0).rngs.after call := by
  induction call with
  | zero => rfl
  | succ call ih =>
      rw [consecutive.draws call bound, Kernel.getWinner_eq, ih (by omega), Rngs.after_succ]

theorem Consecutive.drawnIndex (consecutive : Consecutive calls number)
    (seed : InPeriod (calls 0).rngs.state) {call : Nat} (bound : call < number) :
    (calls call).drawnIndex =
      Quantise.bucket 2147483647 10000 ((calls 0).rngs.after (call + 1)).state.toNat %
        (calls 0).numTickets := by
  have next := Rngs.after_seed seed (call + 1)
  rw [Rngs.after_succ] at next ⊢
  obtain ⟨x, value⟩ : ∃ x : Nat, ((calls 0).rngs.after call).random.2.state = x :=
    ⟨_, (Int.toNat_of_nonneg (by have := next.1; omega)).symm⟩
  rw [Kernel.drawnIndex, consecutive.rngs bound,
    Kernel.winnerIndex_draw (Rngs.after_seed seed call), (consecutive.table call bound).1, value,
    Int.toNat_natCast]
  have cast : (10000 * (x : Int) / modulus % ((calls 0).numTickets : Nat)) =
      ((10000 * x / 2147483647 % (calls 0).numTickets : Nat) : Int) := by
    simp only [modulus]
    push_cast
    rfl
  rw [cast, Int.toNat_natCast]
  rfl

theorem Consecutive.timesDrawn_eq (consecutive : Consecutive calls 2147483646)
    (seed : InPeriod (calls 0).rngs.state) (ticket : Nat) :
    timesDrawn calls 2147483646 ticket =
      (Quantise.ofClass 2147483647 10000 (calls 0).numTickets ticket).card := by
  have inside (call : Nat) (_ : call < 2147483646) :
      ((calls 0).rngs.after (call + 1)).state.toNat ∈ Finset.Ico 1 2147483647 := by
    obtain ⟨low, high⟩ := Rngs.after_seed seed (call + 1)
    rw [Finset.mem_Ico]
    omega
  have onto (x : Nat) (member : x ∈ Finset.Ico 1 2147483647) :
      ∃ call, call < 2147483646 ∧ ((calls 0).rngs.after (call + 1)).state.toNat = x := by
    rw [Finset.mem_Ico] at member
    have wanted : InPeriod (x : Int) := ⟨by omega, by omega⟩
    obtain ⟨call, bound, reached⟩ := Rngs.after_reaches seed wanted
    exact ⟨call, bound, by rw [reached, Int.toNat_natCast]⟩
  have visits := Lehmer.count_visits inside onto (Nat.card_Ico _ _) fun x =>
    Quantise.bucket 2147483647 10000 x % (calls 0).numTickets = ticket
  rw [Quantise.ofClass, ← visits, timesDrawn, Nat.count_eq_card_filter_range,
    Nat.count_eq_card_filter_range]
  refine congrArg Finset.card (Finset.filter_congr fun call member => ?_)
  rw [consecutive.drawnIndex seed (Finset.mem_range.mp member)]

theorem Consecutive.wins_eq (consecutive : Consecutive calls number)
    (seed : InPeriod (calls 0).rngs.state) (sold : 0 < (calls 0).numTickets) (pid : Nat) :
    wins calls number pid = ∑ ticket ∈ (calls 0).holdings pid, timesDrawn calls number ticket := by
  have winner {call : Nat} (bound : call < number) :
      (calls call).getWinner.1 = (calls 0).tickets (calls call).drawnIndex := by
    rw [Kernel.getWinner_eq, (consecutive.table call bound).2]
  have held : ∀ call ∈ ({call ∈ Finset.range number | (calls call).getWinner.1 = pid} : Finset Nat),
      (calls call).drawnIndex ∈ (calls 0).holdings pid := by
    intro call member
    obtain ⟨bound, won⟩ := Finset.mem_filter.mp member
    rw [Finset.mem_range] at bound
    rw [winner bound] at won
    have range : (calls call).drawnIndex < (calls 0).numTickets := by
      rw [consecutive.drawnIndex seed bound]
      exact Nat.mod_lt _ sold
    exact Finset.mem_filter.mpr ⟨Finset.mem_range.mpr range, won⟩
  rw [wins, Nat.count_eq_card_filter_range, Finset.card_eq_sum_card_fiberwise held]
  refine Finset.sum_congr rfl fun ticket member => ?_
  rw [timesDrawn, Nat.count_eq_card_filter_range]
  refine congrArg Finset.card ?_
  rw [Finset.filter_filter]
  refine Finset.filter_congr fun call inside => ?_
  constructor
  · exact And.right
  · rintro rfl
    rw [winner (Finset.mem_range.mp inside)]
    exact ⟨(Finset.mem_filter.mp member).2, rfl⟩

end Period

/-- Over one period the tickets are drawn equally often, up to one bucket and one state for each
bucket of a ticket, and processes win in proportion to the tickets they hold. -/
theorem lottery_fair (calls : Nat → Kernel) (consecutive : Consecutive calls 2147483646)
    (seed : 1 ≤ (calls 0).rngs.state ∧ (calls 0).rngs.state ≤ 2147483646)
    (low : 4 ≤ (calls 0).numTickets) (high : (calls 0).numTickets ≤ 200) :
    (∀ i j, i < (calls 0).numTickets → j < (calls 0).numTickets →
      |(timesDrawn calls 2147483646 i : Int) - timesDrawn calls 2147483646 j| ≤
        ((214749 + 10000 / (calls 0).numTickets : Nat) : Int)) ∧
    ∀ p q, |(((calls 0).holdings q).card : Int) * wins calls 2147483646 p -
        ((calls 0).holdings p).card * wins calls 2147483646 q| ≤
      ((calls 0).holdings p).card * ((calls 0).holdings q).card *
        ((214749 + 10000 / (calls 0).numTickets : Nat) : Int) := by
  have near (i j : Nat) (hi : i < (calls 0).numTickets) (hj : j < (calls 0).numTickets) :
      |(timesDrawn calls 2147483646 i : Int) - timesDrawn calls 2147483646 j| ≤
        ((214749 + 10000 / (calls 0).numTickets : Nat) : Int) := by
    have above := @Quantise.ofClass_difference 2147483647 10000 _ (by decide) (by decide)
      (by decide) _ _ hi hj
    have below := @Quantise.ofClass_difference 2147483647 10000 _ (by decide) (by decide)
      (by decide) _ _ hj hi
    rw [consecutive.timesDrawn_eq seed, consecutive.timesDrawn_eq seed, abs_le]
    omega
  refine ⟨near, fun p q => ?_⟩
  rw [consecutive.wins_eq seed (by omega), consecutive.wins_eq seed (by omega)]
  push_cast
  refine Quantise.totals_difference fun i hi j hj => ?_
  have bound := near i j (Finset.mem_range.mp (Finset.mem_filter.mp hi).1)
    (Finset.mem_range.mp (Finset.mem_filter.mp hj).1)
  exact_mod_cast bound

private def soldEach : Kernel :=
  { (bareBoot 4).kernel with numTickets := 4, tickets := fun ticket => ticket + 1 }

theorem lottery_fair_each :
    |(timesDrawn (fun call => (fun k => k.getWinner.2)^[call] soldEach) 2147483646 0 : Int) -
      timesDrawn (fun call => (fun k => k.getWinner.2)^[call] soldEach) 2147483646 3| ≤ 217249 := by
  let calls (call : Nat) : Kernel := (fun k => k.getWinner.2)^[call] soldEach
  have state : (calls 0).rngs.state = 1 := by
    simp only [calls, Function.iterate_zero_apply, soldEach, Boot.kernel_rngs, plantSeeds_state]
  have sold : (calls 0).numTickets = 4 := rfl
  have fair := lottery_fair calls (consecutive_iterate soldEach _) (by omega) (by omega) (by omega)
  rw [sold] at fair
  exact fair.1 0 3 (by decide) (by decide)

end SchedOS
