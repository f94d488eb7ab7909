import Mathlib.Algebra.BigOperators.Group.List.Basic
import Mathlib.Data.BitVec
import Mathlib.Tactic.Ring

set_option autoImplicit false

namespace Bitfield

-- A width, and the value assigned to the field; the field keeps its low bits.
abbrev Field := Nat × Nat

def width (fields : List Field) : Nat := (fields.map Prod.fst).sum

def pack : List Field → Nat
  | [] => 0
  | (w, value) :: rest => value % 2 ^ w + 2 ^ w * pack rest

def extract (bits low w : Nat) : Nat := bits / 2 ^ low % 2 ^ w

@[simp] theorem width_nil : width [] = 0 := rfl

@[simp] theorem width_cons (w value : Nat) (rest : List Field) :
    width ((w, value) :: rest) = w + width rest := by
  simp [width]

theorem pack_lt (fields : List Field) : pack fields < 2 ^ width fields := by
  induction fields with
  | nil => simp [pack]
  | cons field rest ih =>
      obtain ⟨w, value⟩ := field
      have low : value % 2 ^ w < 2 ^ w := Nat.mod_lt _ (Nat.two_pow_pos w)
      have high : 2 ^ w * (pack rest + 1) ≤ 2 ^ w * 2 ^ width rest := Nat.mul_le_mul_left _ ih
      rw [width_cons, Nat.pow_add, pack]
      rw [Nat.mul_succ] at high
      omega

theorem pack_append (before after : List Field) :
    pack (before ++ after) = pack before + 2 ^ width before * pack after := by
  induction before with
  | nil => simp [pack]
  | cons field rest ih =>
      obtain ⟨w, value⟩ := field
      rw [List.cons_append, pack, pack, ih, width_cons, Nat.pow_add]
      ring

theorem pack_zeros {fields : List Field} (zeros : ∀ field ∈ fields, field.2 = 0) :
    pack fields = 0 := by
  induction fields with
  | nil => rfl
  | cons field rest ih =>
      obtain ⟨w, value⟩ := field
      obtain rfl : value = 0 := zeros _ List.mem_cons_self
      rw [pack, ih fun field member => zeros field (List.mem_cons_of_mem _ member), Nat.zero_mod,
        Nat.mul_zero]

theorem extract_field {fields : List Field} {i w value : Nat}
    (field : fields[i]? = some (w, value)) :
    extract (pack fields) (width (fields.take i)) w = value % 2 ^ w := by
  obtain ⟨bound, entry⟩ := List.getElem?_eq_some_iff.mp field
  have low := pack_lt (fields.take i)
  have split : pack fields = pack (fields.take i) +
      2 ^ width (fields.take i) * pack ((w, value) :: fields.drop (i + 1)) := by
    rw [← entry, ← List.drop_eq_getElem_cons bound, ← pack_append, List.take_append_drop]
  rw [extract, split, pack, Nat.add_mul_div_left _ _ (Nat.two_pow_pos _), Nat.div_eq_of_lt low,
    Nat.zero_add, Nat.add_mul_mod_self_left, Nat.mod_mod]

theorem extract_split (bits low w rest : Nat) :
    extract bits low (w + rest) = extract bits low w + 2 ^ w * extract bits (low + w) rest := by
  rw [extract, extract, extract, Nat.pow_add, Nat.pow_add, Nat.mod_mul, Nat.div_div_eq_div_mul]

theorem testBit_extract (bits low w i : Nat) :
    (extract bits low w).testBit i = (decide (i < w) && bits.testBit (low + i)) := by
  rw [extract, Nat.testBit_mod_two_pow, Nat.testBit_div_two_pow, Nat.add_comm]

theorem extract_mod {bits low w n : Nat} (inside : low + w ≤ n) :
    extract (bits % 2 ^ n) low w = extract bits low w := by
  apply Nat.eq_of_testBit_eq
  intro i
  rw [testBit_extract, testBit_extract, Nat.testBit_mod_two_pow]
  by_cases here : i < w
  · simp [here, show low + i < n by omega]
  · simp [here]

theorem extract_zero {bits low w : Nat} :
    extract bits low w = 0 ↔ ∀ i, i < w → bits.testBit (low + i) = false := by
  constructor
  · intro zero i inside
    have here := testBit_extract bits low w i
    rw [zero, Nat.zero_testBit] at here
    simpa [inside] using here.symm
  · intro clear
    apply Nat.eq_of_testBit_eq
    intro i
    rw [testBit_extract, Nat.zero_testBit]
    by_cases inside : i < w
    · simp [inside, clear i inside]
    · simp [inside]

def bytes : Nat → Nat → List (BitVec 8)
  | 0, _ => []
  | n + 1, bits => BitVec.ofNat 8 bits :: bytes n (bits / 256)

@[simp] theorem length_bytes (n bits : Nat) : (bytes n bits).length = n := by
  induction n generalizing bits with
  | zero => rfl
  | succ n ih => simp [bytes, ih]

theorem bytes_mod (n bits : Nat) : bytes n (bits % 2 ^ (8 * n)) = bytes n bits := by
  induction n generalizing bits with
  | zero => rfl
  | succ n ih =>
      have split : 2 ^ (8 * (n + 1)) = 256 * 2 ^ (8 * n) := by
        rw [Nat.mul_succ, Nat.pow_add, Nat.mul_comm]
      have first : BitVec.ofNat 8 (bits % 2 ^ (8 * (n + 1))) = BitVec.ofNat 8 bits := by
        apply BitVec.eq_of_toNat_eq
        rw [BitVec.toNat_ofNat, BitVec.toNat_ofNat, split, Nat.mod_mul_right_mod]
      rw [bytes, bytes, first, split, Nat.mod_mul_right_div_self, ih]

theorem bytes_add {j low : Nat} (small : low < 2 ^ (8 * j)) (n high : Nat) :
    bytes (j + n) (low + 2 ^ (8 * j) * high) = bytes j low ++ bytes n high := by
  induction j generalizing low with
  | zero =>
      have none : low = 0 := by simpa using small
      simp [bytes, none]
  | succ j ih =>
      have split : 2 ^ (8 * (j + 1)) = 256 * 2 ^ (8 * j) := by
        rw [Nat.mul_succ, Nat.pow_add, Nat.mul_comm]
      have first : BitVec.ofNat 8 (low + 2 ^ (8 * (j + 1)) * high) = BitVec.ofNat 8 low := by
        apply BitVec.eq_of_toNat_eq
        rw [BitVec.toNat_ofNat, BitVec.toNat_ofNat, split, Nat.mul_assoc]
        exact Nat.add_mul_mod_self_left ..
      have rest : (low + 2 ^ (8 * (j + 1)) * high) / 256 = low / 256 + 2 ^ (8 * j) * high := by
        rw [split, Nat.mul_assoc, Nat.add_mul_div_left _ _ (by decide)]
      have less : low / 256 < 2 ^ (8 * j) := by
        rw [split] at small
        exact Nat.div_lt_of_lt_mul small
      rw [Nat.succ_add, bytes, first, rest, ih less, bytes, List.cons_append]

theorem bytes_pack {before : List Field} {j : Nat} (whole : width before = 8 * j) (n : Nat)
    (after : List Field) :
    bytes (j + n) (pack (before ++ after)) = bytes j (pack before) ++ bytes n (pack after) := by
  have small := pack_lt before
  rw [whole] at small
  rw [pack_append, whole, bytes_add small]

end Bitfield
