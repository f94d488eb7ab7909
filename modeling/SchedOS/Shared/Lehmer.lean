import Mathlib

set_option autoImplicit false

namespace Lehmer

section Split

-- The split difference `a * (x % q) - r * (x / q)`, with `q` and `r` quotient and remainder of the
-- modulus by the multiplier, differs from `a * x` by a multiple of the modulus.
theorem split_eq (m a x : Int) :
    a * (x % (m / a)) - m % a * (x / (m / a)) = a * x - m * (x / (m / a)) := by
  have hm := Int.emod_add_mul_ediv m a
  have hx := Int.emod_add_mul_ediv x (m / a)
  generalize m / a = q at *
  generalize x / q = k at *
  linear_combination a * hx - k * hm

variable {m a x : Int}

theorem quotient_pos (positive : 0 < a) (modulus : 0 < m) (small : m % a ≤ m / a) : 0 < m / a := by
  have hm := Int.emod_add_mul_ediv m a
  have := Int.emod_nonneg m (ne_of_gt positive)
  have := Int.ediv_nonneg modulus.le positive.le
  rcases this.lt_or_eq with pos | zero
  · exact pos
  · rw [← zero] at hm small
    omega

theorem product_bounds (positive : 0 < a) (modulus : 0 < m) (small : m % a ≤ m / a) :
    0 ≤ a * (x % (m / a)) ∧ a * (x % (m / a)) < m := by
  have quotient := quotient_pos positive modulus small
  have low := Int.emod_nonneg x (ne_of_gt quotient)
  have high := Int.emod_lt_of_pos x quotient
  have hm := Int.emod_add_mul_ediv m a
  have := Int.emod_nonneg m (ne_of_gt positive)
  exact ⟨by positivity, by nlinarith⟩

theorem correction_bounds (positive : 0 < a) (modulus : 0 < m) (small : m % a ≤ m / a)
    (low : 0 < x) (high : x < m) :
    0 ≤ m % a * (x / (m / a)) ∧ m % a * (x / (m / a)) < m := by
  have quotient := quotient_pos positive modulus small
  have := Int.emod_nonneg m (ne_of_gt positive)
  have := Int.ediv_nonneg low.le quotient.le
  have hx := Int.emod_add_mul_ediv x (m / a)
  have := Int.emod_nonneg x (ne_of_gt quotient)
  exact ⟨by positivity, by nlinarith⟩

theorem split_reduced (positive : 0 < a) (modulus : 0 < m) (small : m % a ≤ m / a)
    (low : 0 < x) (high : x < m) (t : Int)
    (split : t = a * (x % (m / a)) - m % a * (x / (m / a))) (other : ¬ m ∣ a * x) :
    0 < (if t > 0 then t else t + m) ∧ (if t > 0 then t else t + m) < m ∧
      (if t > 0 then t else t + m) ≡ a * x [ZMOD m] := by
  have product := product_bounds (x := x) positive modulus small
  have correction := correction_bounds positive modulus small low high
  have congruent := split_eq m a x
  rw [← split] at congruent
  split_ifs with sign
  · exact ⟨sign, by omega, (Int.modEq_iff_dvd.mpr ⟨x / (m / a), by rw [congruent]; ring⟩)⟩
  · have nonzero : t ≠ 0 := fun zero => other ⟨x / (m / a), by linarith⟩
    refine ⟨by omega, by omega, Int.modEq_iff_dvd.mpr ⟨x / (m / a) - 1, by rw [congruent]; ring⟩⟩

end Split

section Period

variable {p : Nat} [Fact p.Prime] {g : ZMod p}

theorem reaches (period : orderOf g = p - 1) {x y : ZMod p} (hx : x ≠ 0) (hy : y ≠ 0) :
    ∃ draws, 0 < draws ∧ draws ≤ p - 1 ∧ g ^ draws * x = y := by
  have prime : p.Prime := Fact.out
  have two := prime.two_le
  have nonzero : g ≠ 0 := by
    rintro rfl
    have := pow_orderOf_eq_one (0 : ZMod p)
    rw [period, zero_pow (by omega)] at this
    exact zero_ne_one this
  let unit := Units.mk0 g nonzero
  let target := Units.mk0 (y / x) (div_ne_zero hy hx)
  have order : orderOf unit = p - 1 := by
    rw [← period, ← orderOf_units]
    rfl
  -- The multiplier generates all units, so the quotient of the two states is one of its powers.
  have full : Subgroup.zpowers unit = ⊤ := by
    apply Subgroup.eq_top_of_card_eq
    rw [Nat.card_zpowers, order, Nat.card_eq_fintype_card, ZMod.card_units]
  have member : target ∈ Subgroup.zpowers unit := full ▸ Subgroup.mem_top _
  obtain ⟨draws, less, power⟩ :=
    Finset.mem_image.mp (mem_zpowers_iff_mem_range_orderOf.mp member)
  rw [Finset.mem_range, order] at less
  have value : g ^ draws = y / x := congrArg Units.val power
  rcases Nat.eq_zero_or_pos draws with zero | positive
  · -- A state is reached from itself after a whole period.
    refine ⟨p - 1, by omega, le_rfl, ?_⟩
    rw [zero, pow_zero] at value
    rw [← period, pow_orderOf_eq_one, value, div_mul_cancel₀ y hx]
  · exact ⟨draws, positive, by omega, by rw [value, div_mul_cancel₀ y hx]⟩

theorem powers_apart (period : orderOf g = p - 1) {x : ZMod p} (hx : x ≠ 0) {a b : Nat}
    (ha : a < p - 1) (hb : b < p - 1) (same : g ^ a * x = g ^ b * x) : a = b :=
  pow_injOn_Iio_orderOf (period ▸ ha) (period ▸ hb) (mul_right_cancel₀ hx same)

theorem returns_iff (period : orderOf g = p - 1) {x : ZMod p} (hx : x ≠ 0) (draws : Nat) :
    g ^ draws * x = x ↔ p - 1 ∣ draws := by
  rw [← period, orderOf_dvd_iff_pow_eq_one]
  constructor
  · intro same
    exact mul_right_cancel₀ hx (same.trans (one_mul x).symm)
  · intro one
    rw [one, one_mul]

end Period

section Visits

open Finset

variable {α : Type} {s : Finset α} {f : Nat → α} {period : Nat}

theorem count_visits (inside : ∀ d, d < period → f d ∈ s)
    (onto : ∀ x ∈ s, ∃ d, d < period ∧ f d = x) (size : s.card = period) (property : α → Prop)
    [DecidablePred property] :
    Nat.count (fun d => property (f d)) period = #{x ∈ s | property x} := by
  have maps : Set.MapsTo f (range period : Finset Nat) s := fun d member =>
    inside d (mem_range.mp member)
  have visited : Set.SurjOn f (range period : Finset Nat) s := by
    intro x member
    obtain ⟨d, bound, same⟩ := onto x member
    exact ⟨d, mem_coe.mpr (mem_range.mpr bound), same⟩
  have once : Set.InjOn f (range period : Finset Nat) :=
    injOn_of_surjOn_of_card_le f maps visited (by rw [card_range, size])
  rw [Nat.count_eq_card_filter_range]
  refine card_bij (fun d _ => f d) ?_ ?_ ?_
  · intro d member
    rw [mem_filter] at member ⊢
    exact ⟨maps member.1, member.2⟩
  · intro d member e other same
    exact once (mem_filter.mp member).1 (mem_filter.mp other).1 same
  · intro x member
    rw [mem_filter] at member
    obtain ⟨d, bound, rfl⟩ := onto x member.1
    exact ⟨d, mem_filter.mpr ⟨mem_range.mpr bound, member.2⟩, rfl⟩

end Visits

end Lehmer
