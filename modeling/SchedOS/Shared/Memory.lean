import Mathlib.Data.BitVec
import Mathlib.Tactic.Abel
import Mathlib.Tactic.Common

set_option autoImplicit false

namespace Memory

variable {w : Nat} {α : Type}

theorem offset_succ {x a : BitVec w} (other : x ≠ a) :
    (x - a).toNat = (x - (a + 1)).toNat + 1 := by
  have step : x - a = x - (a + 1) + 1#w := by
    have : x - (a + 1) + 1 = x - a := by abel
    exact this.symm
  have nonzero : (x - a).toNat ≠ 0 := fun zero =>
    sub_ne_zero.mpr other (BitVec.eq_of_toNat_eq (by simpa using zero))
  have wide : 1 < 2 ^ w := by
    have := (x - a).isLt
    omega
  rw [step, BitVec.toNat_add, BitVec.toNat_ofNat, Nat.mod_eq_of_lt wide] at nonzero ⊢
  have := (x - (a + 1)).isLt
  rcases Nat.lt_or_ge ((x - (a + 1)).toNat + 1) (2 ^ w) with less | more
  · exact Nat.mod_eq_of_lt less
  · have full : (x - (a + 1)).toNat + 1 = 2 ^ w := by omega
    rw [full, Nat.mod_self] at nonzero
    exact absurd rfl nonzero

theorem offset_self (a : BitVec w) : (a - (a + 1)).toNat + 1 = 2 ^ w := by
  have step : a - (a + 1) = -1#w := by
    have : a - (a + 1) = -1 := by abel
    exact this
  have positive : 0 < 2 ^ w := Nat.two_pow_pos w
  rw [step, BitVec.toNat_neg, BitVec.toNat_ofNat]
  rcases Nat.lt_or_ge 1 (2 ^ w) with wide | narrow
  · rw [Nat.mod_eq_of_lt wide, Nat.mod_eq_of_lt (by omega)]
    omega
  · have one : 2 ^ w = 1 := by omega
    rw [one]

theorem address_pred (a : BitVec w) (n : Nat) :
    a + BitVec.ofNat w (n + 1) - 1 = a + BitVec.ofNat w n := by
  rw [BitVec.ofNat_add, ← add_assoc]
  exact add_sub_cancel_right _ _

def store : BitVec w → List α → (BitVec w → α) → BitVec w → α
  | _, [], m => m
  | a, b :: block, m => store (a + 1) block (Function.update m a b)

theorem store_get (a : BitVec w) (block : List α) (short : block.length ≤ 2 ^ w)
    (m : BitVec w → α) (x : BitVec w) :
    store a block m x = (block[(x - a).toNat]?).getD (m x) := by
  induction block generalizing a m with
  | nil => rfl
  | cons b block ih =>
      rw [List.length_cons] at short
      rw [store, ih (a + 1) (by omega)]
      by_cases same : x = a
      · have last := offset_self a
        rw [same, List.getElem?_eq_none (by omega), Function.update_self]
        simp
      · rw [offset_succ same, List.getElem?_cons_succ, Function.update_of_ne same]

def fill (value : α) : Nat → BitVec w → (BitVec w → α) → BitVec w → α
  | 0, _, m => m
  | n + 1, a, m => fill value n (a + 1) (Function.update m a value)

theorem fill_get (value : α) {n : Nat} (short : n ≤ 2 ^ w) (a : BitVec w) (m : BitVec w → α)
    (x : BitVec w) : fill value n a m x = if (x - a).toNat < n then value else m x := by
  induction n generalizing a m with
  | zero => rfl
  | succ n ih =>
      rw [fill, ih (by omega)]
      by_cases same : x = a
      · have last := offset_self a
        rw [same, if_neg (by omega), Function.update_self, BitVec.sub_self, if_pos (by simp)]
      · rw [offset_succ same, Function.update_of_ne same]
        exact if_congr (by omega) rfl rfl

def copy : Nat → BitVec w → BitVec w → (BitVec w → α) → BitVec w → α
  | 0, _, _, m => m
  | n + 1, dst, src, m => copy n (dst + 1) (src + 1) (Function.update m dst (m src))

theorem copy_get {n : Nat} (short : n ≤ 2 ^ w) {dst src : BitVec w}
    (apart : (dst - src).toNat = 0 ∨ n ≤ (dst - src).toNat) (m : BitVec w → α) (x : BitVec w) :
    copy n dst src m x = if (x - dst).toNat < n then m (src + (x - dst)) else m x := by
  induction n generalizing dst src m with
  | zero => rfl
  | succ n ih =>
      have shifted : dst + 1 - (src + 1) = dst - src := by abel
      rw [copy, ih (by omega) (by rw [shifted]; omega)]
      by_cases same : x = dst
      · have last := offset_self dst
        rw [same, if_neg (by omega), Function.update_self, BitVec.sub_self, if_pos (by simp)]
        simp
      · have ahead : src + 1 + (x - (dst + 1)) = src + (x - dst) := by abel
        rw [offset_succ same, Function.update_of_ne same, ahead]
        by_cases inside : (x - (dst + 1)).toNat < n
        · have kept : src + (x - dst) ≠ dst := by
            intro read
            have offset : x - dst = dst - src := eq_sub_of_add_eq' read
            have := offset_succ same
            rw [offset] at this
            omega
          rw [if_pos inside, if_pos (by omega), Function.update_of_ne kept]
        · rw [if_neg inside, if_neg (by omega)]

def copyBack : Nat → BitVec w → BitVec w → (BitVec w → α) → BitVec w → α
  | 0, _, _, m => m
  | n + 1, dst, src, m =>
      copyBack n (dst - 1) (src - 1) (Function.update m (dst - 1) (m (src - 1)))

theorem copyBack_get {n : Nat} (short : n < 2 ^ w) {dst src : BitVec w}
    (apart : (src - dst).toNat = 0 ∨ n ≤ (src - dst).toNat) (m : BitVec w → α) (x : BitVec w) :
    copyBack n (dst + BitVec.ofNat w n) (src + BitVec.ofNat w n) m x =
      if (x - dst).toNat < n then m (src + (x - dst)) else m x := by
  induction n generalizing m with
  | zero => rfl
  | succ n ih =>
      have count : (BitVec.ofNat w n).toNat = n := by
        rw [BitVec.toNat_ofNat, Nat.mod_eq_of_lt (by omega)]
      rw [copyBack, address_pred, address_pred, ih (by omega) (by omega)]
      by_cases same : x = dst + BitVec.ofNat w n
      · rw [same, add_sub_cancel_left, count, if_neg (by omega), Function.update_self,
          if_pos (by omega)]
      · have other : (x - dst).toNat ≠ n := fun offset =>
          same (eq_add_of_sub_eq' (BitVec.eq_of_toNat_eq (offset.trans count.symm)))
        rw [Function.update_of_ne same]
        by_cases inside : (x - dst).toNat < n
        · have kept : src + (x - dst) ≠ dst + BitVec.ofNat w n := by
            intro read
            have sum : src - dst + (x - dst) = BitVec.ofNat w n := by
              rw [sub_add_eq_add_sub, read, add_sub_cancel_left]
            have offsets := congrArg BitVec.toNat sum
            rw [BitVec.toNat_add, count] at offsets
            have whole := (src - dst).isLt
            rcases Nat.lt_or_ge ((src - dst).toNat + (x - dst).toNat) (2 ^ w) with less | more
            · rw [Nat.mod_eq_of_lt less] at offsets
              omega
            · rw [Nat.mod_eq_sub_mod more, Nat.mod_eq_of_lt (by omega)] at offsets
              omega
          rw [if_pos inside, if_pos (by omega), Function.update_of_ne kept]
        · rw [if_neg inside, if_neg (by omega)]

end Memory
