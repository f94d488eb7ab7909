import Mathlib.Data.Int.CardIntervalMod
import Mathlib.Algebra.BigOperators.Ring.Finset
import Mathlib.Algebra.Order.BigOperators.Group.Finset
import Mathlib.Tactic.Linarith
import Mathlib.Tactic.Ring

set_option autoImplicit false

namespace Quantise

open Finset

variable {m buckets n : Nat}

def bucket (m buckets x : Nat) : Nat := buckets * x / m

def members (m buckets b : Nat) : Finset Nat := {x ∈ Ico 1 m | bucket m buckets x = b}

def ofClass (m buckets n i : Nat) : Finset Nat := {x ∈ Ico 1 m | bucket m buckets x % n = i}

theorem bucket_eq {x b : Nat} (modulus : 0 < m) :
    bucket m buckets x = b ↔ b * m ≤ buckets * x ∧ buckets * x < (b + 1) * m := by
  unfold bucket
  rw [Nat.div_eq_iff modulus, Nat.succ_mul]
  constructor <;> rintro ⟨low, high⟩ <;> constructor <;> omega

theorem bucket_lt {x : Nat} (positive : 0 < buckets) (below : x < m) :
    bucket m buckets x < buckets := by
  unfold bucket
  rw [Nat.div_lt_iff_lt_mul (by omega)]
  exact Nat.mul_lt_mul_of_pos_left below positive

def least (m buckets b : Nat) : Nat := (b * m + (buckets - 1)) / buckets

theorem least_le {x b : Nat} (positive : 0 < buckets) :
    least m buckets b ≤ x ↔ b * m ≤ buckets * x := by
  unfold least
  rw [Nat.div_le_iff_le_mul_add_pred positive]
  constructor <;> intro le <;> omega

theorem members_eq (positive : 0 < buckets) (modulus : 0 < m) {b : Nat} (bound : b < buckets) :
    members m buckets b = Ico (max 1 (least m buckets b)) (least m buckets (b + 1)) := by
  have last : least m buckets (b + 1) ≤ m :=
    (least_le positive).mpr (Nat.mul_le_mul_right m bound)
  ext x
  have low := least_le (m := m) (x := x) (b := b) positive
  have high := least_le (m := m) (x := x) (b := b + 1) positive
  simp only [members, mem_filter, mem_Ico, bucket_eq modulus]
  omega

theorem least_bounds (positive : 0 < buckets) (b : Nat) :
    b * m ≤ buckets * least m buckets b ∧ buckets * least m buckets b < b * m + buckets := by
  have rounded := Nat.div_add_mod (b * m + (buckets - 1)) buckets
  have remainder := Nat.mod_lt (b * m + (buckets - 1)) positive
  unfold least
  omega

theorem members_card (positive : 0 < buckets) (modulus : 0 < m) (other : ¬ buckets ∣ m) {b : Nat}
    (bound : b < buckets) :
    m / buckets ≤ (members m buckets b).card ∧ (members m buckets b).card ≤ m / buckets + 1 := by
  rw [members_eq positive modulus bound, Nat.card_Ico]
  obtain ⟨low, high⟩ := least_bounds (m := m) positive b
  obtain ⟨nextLow, nextHigh⟩ := least_bounds (m := m) positive (b + 1)
  have division := Nat.div_add_mod m buckets
  have remainder := Nat.mod_lt m positive
  rw [Nat.succ_mul] at nextLow nextHigh
  generalize least m buckets b = first at *
  generalize least m buckets (b + 1) = next at *
  generalize m / buckets = quotient at *
  constructor
  · rcases Nat.eq_zero_or_pos b with rfl | later
    · -- The value 0 is not counted, but the first bucket has it in excess.
      have exact : buckets * next ≠ m := fun same => other ⟨next, same.symm⟩
      have enough : buckets * quotient < buckets * next := by omega
      have := Nat.lt_of_mul_lt_mul_left enough
      have none : buckets * first < buckets * 1 := by omega
      have := Nat.lt_of_mul_lt_mul_left none
      omega
    · have enough : buckets * (quotient + first) < buckets * (next + 1) := by
        rw [Nat.mul_add, Nat.mul_succ]
        omega
      have := Nat.lt_of_mul_lt_mul_left enough
      have started : 1 ≤ first := by
        by_contra none
        have zero : first = 0 := by omega
        have := Nat.mul_pos later modulus
        rw [zero] at low
        omega
      omega
  · have few : buckets * next < buckets * (quotient + 2 + first) := by
      rw [Nat.mul_add, Nat.mul_add]
      omega
    have := Nat.lt_of_mul_lt_mul_left few
    omega

theorem ofClass_card (positive : 0 < buckets) (i : Nat) :
    (ofClass m buckets n i).card =
      ∑ b ∈ range buckets with b % n = i, (members m buckets b).card := by
  have sorted : ∀ x ∈ ofClass m buckets n i,
      bucket m buckets x ∈ {b ∈ range buckets | b % n = i} := by
    intro x member
    simp only [ofClass, mem_filter, mem_Ico, mem_range] at member ⊢
    exact ⟨bucket_lt positive member.1.2, member.2⟩
  rw [card_eq_sum_card_fiberwise sorted]
  refine sum_congr rfl fun b member => congrArg card ?_
  ext x
  simp only [ofClass, members, mem_filter] at member ⊢
  constructor
  · rintro ⟨⟨inside, -⟩, same⟩
    exact ⟨inside, same⟩
  · rintro ⟨inside, rfl⟩
    exact ⟨⟨inside, member.2⟩, rfl⟩

theorem residues_card {i : Nat} (bound : i < n) :
    buckets / n ≤ #{b ∈ range buckets | b % n = i} ∧
      #{b ∈ range buckets | b % n = i} ≤ buckets / n + 1 := by
  have residue (b : Nat) : b % n = i ↔ b ≡ i [MOD n] := by
    rw [Nat.ModEq, Nat.mod_eq_of_lt bound]
  have counted := Nat.count_modEq_card buckets (Nat.zero_lt_of_lt bound) i
  rw [Nat.count_eq_card_filter_range] at counted
  simp only [residue]
  rw [counted]
  split_ifs <;> omega

theorem ofClass_bounds (positive : 0 < buckets) (modulus : 0 < m) (other : ¬ buckets ∣ m) {i : Nat}
    (bound : i < n) :
    buckets / n * (m / buckets) ≤ (ofClass m buckets n i).card ∧
      (ofClass m buckets n i).card ≤ (buckets / n + 1) * (m / buckets + 1) := by
  obtain ⟨least, most⟩ := @residues_card buckets n i bound
  have sizes : ∀ b ∈ ({b ∈ range buckets | b % n = i} : Finset Nat),
      m / buckets ≤ (members m buckets b).card ∧ (members m buckets b).card ≤ m / buckets + 1 :=
    fun b member => members_card positive modulus other (mem_range.mp (mem_filter.mp member).1)
  rw [ofClass_card positive]
  constructor
  · calc buckets / n * (m / buckets)
        ≤ #{b ∈ range buckets | b % n = i} * (m / buckets) := Nat.mul_le_mul_right _ least
      _ ≤ _ := by simpa using card_nsmul_le_sum _ _ _ fun b member => (sizes b member).1
  · calc _ ≤ #{b ∈ range buckets | b % n = i} * (m / buckets + 1) := by
            simpa using sum_le_card_nsmul _ _ _ fun b member => (sizes b member).2
      _ ≤ _ := Nat.mul_le_mul_right _ most

theorem ofClass_difference (positive : 0 < buckets) (modulus : 0 < m) (other : ¬ buckets ∣ m)
    {i j : Nat} (hi : i < n) (hj : j < n) :
    (ofClass m buckets n i).card ≤
      (ofClass m buckets n j).card + (m / buckets + 1 + buckets / n) := by
  have most := (ofClass_bounds positive modulus other hi).2
  have least := (ofClass_bounds positive modulus other hj).1
  have product : (buckets / n + 1) * (m / buckets + 1) =
      buckets / n * (m / buckets) + (m / buckets + 1 + buckets / n) := by ring
  omega

theorem totals_difference {count : Nat → Int} {bound : Int} {first second : Finset Nat}
    (near : ∀ i ∈ first, ∀ j ∈ second, |count i - count j| ≤ bound) :
    |second.card * ∑ i ∈ first, count i - first.card * ∑ j ∈ second, count j| ≤
      first.card * second.card * bound := by
  have pairs : second.card * ∑ i ∈ first, count i - first.card * ∑ j ∈ second, count j =
      ∑ i ∈ first, ∑ j ∈ second, (count i - count j) := by
    simp only [sum_sub_distrib, sum_const, nsmul_eq_mul, ← mul_sum]
  have each (i : Nat) (member : i ∈ first) :
      |∑ j ∈ second, (count i - count j)| ≤ second.card * bound :=
    calc _ ≤ ∑ j ∈ second, |count i - count j| := abs_sum_le_sum_abs _ _
      _ ≤ second.card • bound := sum_le_card_nsmul _ _ _ fun j => near i member j
      _ = _ := nsmul_eq_mul _ _
  rw [pairs, mul_assoc]
  calc _ ≤ ∑ i ∈ first, |∑ j ∈ second, (count i - count j)| := abs_sum_le_sum_abs _ _
    _ ≤ first.card • (second.card * bound) := sum_le_card_nsmul _ _ _ each
    _ = _ := nsmul_eq_mul _ _

end Quantise
