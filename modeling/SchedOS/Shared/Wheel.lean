import Mathlib.Algebra.BigOperators.Intervals
import Mathlib.Data.Nat.Periodic
import Mathlib.Tactic.Ring

set_option autoImplicit false

namespace Wheel

def mark (w : Nat → Nat) (p : Nat) : Nat := ∑ i ∈ Finset.range p, w i

@[simp] theorem mark_zero (w : Nat → Nat) : mark w 0 = 0 := rfl

@[simp] theorem mark_succ (w : Nat → Nat) (p : Nat) : mark w (p + 1) = mark w p + w p :=
  Finset.sum_range_succ w p

theorem mark_mono (w : Nat → Nat) {p q : Nat} (le : p ≤ q) : mark w p ≤ mark w q :=
  Finset.sum_le_sum_of_subset (Finset.range_mono le)

def Owns (w : Nat → Nat) (slot p : Nat) : Prop := mark w p ≤ slot ∧ slot < mark w (p + 1)

instance (w : Nat → Nat) (slot p : Nat) : Decidable (Owns w slot p) :=
  inferInstanceAs (Decidable (_ ∧ _))

theorem Owns.unique {w : Nat → Nat} {slot p q : Nat} (left : Owns w slot p)
    (right : Owns w slot q) : p = q := by
  by_contra other
  rcases Nat.lt_or_gt_of_ne other with less | more
  · have := mark_mono w (show p + 1 ≤ q from less)
    exact absurd (left.2.trans_le this) (Nat.not_lt.mpr right.1)
  · have := mark_mono w (show q + 1 ≤ p from more)
    exact absurd (right.2.trans_le this) (Nat.not_lt.mpr left.1)

def Follows (w : Nat → Nat) (size : Nat) : Nat → List Nat → Prop
  | _, [] => True
  | slot, d :: turns => Owns w (slot % size) d ∧ Follows w size (slot + 1) turns

theorem Follows.initial {w : Nat → Nat} {size slot : Nat} {turns rest : List Nat}
    (follows : Follows w size slot (turns ++ rest)) : Follows w size slot turns := by
  induction turns generalizing slot with
  | nil => trivial
  | cons d turns ih => exact ⟨follows.1, ih follows.2⟩

theorem Follows.within {w : Nat → Nat} {size slot p : Nat} {turns : List Nat}
    (follows : Follows w size slot turns) (low : mark w p ≤ slot)
    (high : slot + turns.length ≤ mark w (p + 1)) (inside : mark w (p + 1) ≤ size) :
    ∀ d ∈ turns, d = p := by
  induction turns generalizing slot with
  | nil => simp
  | cons d turns ih =>
      obtain ⟨owner, rest⟩ := follows
      rw [List.length_cons] at high
      rw [Nat.mod_eq_of_lt (by omega)] at owner
      have own : Owns w slot p := ⟨low, by omega⟩
      exact List.forall_mem_cons.mpr ⟨owner.unique own, ih rest (by omega) (by omega)⟩

section Counting

variable {w : Nat → Nat} {size : Nat}

theorem Follows.count_eq {slot : Nat} {turns : List Nat} (follows : Follows w size slot turns)
    (p : Nat) : turns.count p =
      ((Finset.Ico slot (slot + turns.length)).filter (fun j => Owns w (j % size) p)).card := by
  induction turns generalizing slot with
  | nil => simp
  | cons d turns ih =>
      obtain ⟨owner, rest⟩ := follows
      have span : Finset.Ico slot (slot + (d :: turns).length) =
          insert slot (Finset.Ico (slot + 1) (slot + 1 + turns.length)) := by
        rw [List.length_cons, show slot + (turns.length + 1) = slot + 1 + turns.length by ring]
        exact (Finset.insert_Ico_succ_left_eq_Ico (by omega)).symm
      rw [span, Finset.filter_insert]
      by_cases same : d = p
      · subst same
        rw [if_pos owner, Finset.card_insert_of_notMem (by simp), List.count_cons_self, ih rest]
      · have missed : ¬ Owns w (slot % size) p := fun own => same (owner.unique own)
        rw [if_neg missed, List.count_cons_of_ne same, ih rest]

theorem count_owned {n p : Nat} (whole : size = mark w n) (bound : p < n) :
    Nat.count (fun j => Owns w (j % size) p) size = w p := by
  have owned : (Finset.range size).filter (fun j => Owns w (j % size) p) =
      Finset.Ico (mark w p) (mark w (p + 1)) := by
    ext j
    have top := mark_mono w (show p + 1 ≤ n from bound)
    simp only [Finset.mem_filter, Finset.mem_range, Finset.mem_Ico]
    constructor
    · rintro ⟨inside, owns⟩
      rwa [Nat.mod_eq_of_lt inside] at owns
    · rintro ⟨low, high⟩
      have inside : j < size := by omega
      exact ⟨inside, by rw [Nat.mod_eq_of_lt inside]; exact ⟨low, high⟩⟩
  rw [Nat.count_eq_card_filter_range, owned, Nat.card_Ico, mark_succ]
  omega

theorem count_rounds {n p : Nat} (whole : size = mark w n) (bound : p < n) (rounds : Nat) :
    Nat.count (fun j => Owns w (j % size) p) (rounds * size) = rounds * w p := by
  induction rounds with
  | zero => simp
  | succ rounds ih =>
      have shifted : (fun j => Owns w ((rounds * size + j) % size) p) =
          fun j => Owns w (j % size) p := by
        funext j
        rw [Nat.add_comm, Nat.add_mul_mod_self_right]
      rw [Nat.succ_mul, Nat.count_add, ih]
      simp only [shifted, count_owned whole bound]
      ring

theorem Follows.exact {n p slot rounds : Nat} {turns : List Nat} (whole : size = mark w n)
    (follows : Follows w size slot turns) (bound : p < n)
    (length : turns.length = rounds * size) : turns.count p = rounds * w p := by
  have periodic : Function.Periodic (fun j => Owns w (j % size) p) (rounds * size) := by
    intro j
    simp only [Nat.add_mul_mod_self_right]
  rw [follows.count_eq p, length, Nat.filter_Ico_card_eq_of_periodic _ _ _ periodic]
  exact count_rounds whole bound rounds

theorem Follows.streak {n p slot length : Nat} (whole : size = mark w n) (bound : p < n)
    (shared : w p < size) (follows : Follows w size slot (List.replicate length p)) :
    length ≤ w p := by
  by_contra more
  have split : List.replicate length p =
      List.replicate (w p + 1) p ++ List.replicate (length - (w p + 1)) p := by
    rw [List.replicate_append_replicate]
    congr 1
    omega
  rw [split] at follows
  have counted := follows.initial.count_eq p
  rw [List.count_replicate_self, List.length_replicate] at counted
  have periodic : Function.Periodic (fun j => Owns w (j % size) p) size := by
    intro j
    simp only [Nat.add_mod_right]
  have round := Nat.filter_Ico_card_eq_of_periodic slot size _ periodic
  rw [count_owned whole bound] at round
  have within : Finset.Ico slot (slot + (w p + 1)) ⊆ Finset.Ico slot (slot + size) :=
    Finset.Ico_subset_Ico_right (by omega)
  have most := Finset.card_le_card
    (Finset.filter_subset_filter (fun j => Owns w (j % size) p) within)
  omega

end Counting

end Wheel
