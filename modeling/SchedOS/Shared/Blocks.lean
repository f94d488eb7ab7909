import SchedOS.Shared.Memory

set_option autoImplicit false

namespace Memory

variable {w : Nat} {α β : Type} {m m' : BitVec w → α} {a : BitVec w}

def Holds (m : BitVec w → α) (a : BitVec w) (block : List α) : Prop :=
  ∀ i (bound : i < block.length), m (a + BitVec.ofNat w i) = block[i]

theorem Holds.congr {block : List α} (held : Holds m a block)
    (same : ∀ i, i < block.length → m' (a + BitVec.ofNat w i) = m (a + BitVec.ofNat w i)) :
    Holds m' a block :=
  fun i bound => (same i bound).trans (held i bound)

theorem Holds.read {block : List α} (held : Holds m a block) {x : BitVec w}
    (inside : (x - a).toNat < block.length) : m x = block[(x - a).toNat] := by
  have address : a + BitVec.ofNat w (x - a).toNat = x := by
    rw [BitVec.ofNat_toNat, BitVec.setWidth_eq]
    exact add_sub_cancel a x
  have here := held _ inside
  rwa [address] at here

theorem holds_append {before after : List α} : Holds m a (before ++ after) ↔
    Holds m a before ∧ Holds m (a + BitVec.ofNat w before.length) after := by
  have address (i : Nat) : a + BitVec.ofNat w before.length + BitVec.ofNat w i =
      a + BitVec.ofNat w (before.length + i) := by
    rw [BitVec.add_assoc, ← BitVec.ofNat_add]
  constructor
  · intro held
    refine ⟨fun i bound => ?_, fun i bound => ?_⟩
    · rw [held i (by rw [List.length_append]; omega), List.getElem_append_left bound]
    · rw [address, held (before.length + i) (by rw [List.length_append]; omega),
        List.getElem_append_right (by omega)]
      exact getElem_congr_idx (by omega)
  · rintro ⟨low, high⟩ i bound
    rw [List.length_append] at bound
    rcases Nat.lt_or_ge i before.length with inside | outside
    · rw [low i inside, List.getElem_append_left inside]
    · have here := high (i - before.length) (by omega)
      rw [address, Nat.add_sub_of_le outside] at here
      rw [here, List.getElem_append_right outside]

theorem fill_eq_store (value : α) (n : Nat) (a : BitVec w) (m : BitVec w → α) :
    fill value n a m = store a (List.replicate n value) m := by
  induction n generalizing a m with
  | zero => rfl
  | succ n ih => exact ih (a + 1) _

theorem offset_add (a : BitVec w) {i j : Nat} (less : j ≤ i) (small : i < 2 ^ w) :
    (a + BitVec.ofNat w i - (a + BitVec.ofNat w j)).toNat = i - j := by
  have first := Nat.mod_eq_of_lt small
  have second := Nat.mod_eq_of_lt (less.trans_lt small)
  rw [add_sub_add_left_eq_sub, BitVec.toNat_sub, BitVec.toNat_ofNat, BitVec.toNat_ofNat, first,
    second, show 2 ^ w - j + i = i - j + 2 ^ w by omega, Nat.add_mod_right,
    Nat.mod_eq_of_lt (by omega)]

theorem offset_sub (a : BitVec w) {i j : Nat} (less : i < j) (small : j < 2 ^ w) :
    (a + BitVec.ofNat w i - (a + BitVec.ofNat w j)).toNat = 2 ^ w - (j - i) := by
  have first := Nat.mod_eq_of_lt (less.trans small)
  have second := Nat.mod_eq_of_lt small
  rw [add_sub_add_left_eq_sub, BitVec.toNat_sub, BitVec.toNat_ofNat, BitVec.toNat_ofNat, first,
    second, Nat.mod_eq_of_lt (by omega)]
  omega

theorem Holds.update {before old after new : List α} (held : Holds m a (before ++ old ++ after))
    (same : new.length = old.length) (short : (before ++ old ++ after).length < 2 ^ w) :
    Holds (store (a + BitVec.ofNat w before.length) new m) a (before ++ new ++ after) := by
  simp only [List.length_append] at short
  rw [List.append_assoc, holds_append, holds_append] at held ⊢
  obtain ⟨low, -, high⟩ := held
  refine ⟨low.congr fun i bound => ?_, fun i bound => ?_, ?_⟩
  · rw [store_get _ _ (by omega), offset_sub a bound (by omega), List.getElem?_eq_none (by omega)]
    rfl
  · rw [store_get _ _ (by omega), add_sub_cancel_left, BitVec.toNat_ofNat,
      Nat.mod_eq_of_lt (by omega), List.getElem?_eq_getElem bound]
    rfl
  · rw [same]
    refine high.congr fun i bound => ?_
    rw [BitVec.add_assoc, BitVec.add_assoc, ← BitVec.ofNat_add, ← BitVec.ofNat_add,
      store_get _ _ (by omega), offset_add a (by omega) (by omega),
      List.getElem?_eq_none (by omega)]
    rfl

theorem holds_store {block : List α} (short : block.length < 2 ^ w) (m : BitVec w → α)
    (a : BitVec w) : Holds (store a block m) a block := by
  intro i bound
  rw [store_get _ _ short.le, add_sub_cancel_left, BitVec.toNat_ofNat,
    Nat.mod_eq_of_lt (by omega), List.getElem?_eq_getElem bound]
  rfl

theorem Holds.elsewhere {block new : List α} {i j : Nat}
    (held : Holds m (a + BitVec.ofNat w i) block)
    (apart : j + new.length ≤ i ∨ i + block.length ≤ j) (fits : i + block.length < 2 ^ w)
    (short : j + new.length < 2 ^ w) :
    Holds (store (a + BitVec.ofNat w j) new m) (a + BitVec.ofNat w i) block := by
  refine held.congr fun t bound => ?_
  have away : new.length ≤
      (a + BitVec.ofNat w i + BitVec.ofNat w t - (a + BitVec.ofNat w j)).toNat := by
    rw [BitVec.add_assoc, ← BitVec.ofNat_add]
    rcases apart with before | behind
    · rw [offset_add a (by omega) (by omega)]
      omega
    · rw [offset_sub a (by omega) (by omega)]
      omega
  rw [store_get _ _ (by omega), List.getElem?_eq_none away]
  rfl

theorem store_append (before after : List α) (a : BitVec w) (m : BitVec w → α) :
    store a (before ++ after) m =
      store (a + BitVec.ofNat w before.length) after (store a before m) := by
  induction before generalizing a m with
  | nil => simp [store]
  | cons b before ih =>
      rw [List.cons_append, store, ih, store, List.length_cons, Nat.add_comm, BitVec.ofNat_add,
        ← BitVec.add_assoc]
      rfl

theorem offset_outside {x : BitVec w} {size k n : Nat} (outside : size ≤ (x - a).toNat)
    (inside : k + n ≤ size) : n ≤ (x - (a + BitVec.ofNat w k)).toNat := by
  have small := (x - a).isLt
  have value : (BitVec.ofNat w k).toNat = k := by
    rw [BitVec.toNat_ofNat, Nat.mod_eq_of_lt (by omega)]
  rw [← sub_sub, BitVec.toNat_sub_of_le, value]
  · omega
  · rw [BitVec.le_def, value]
    omega

theorem store_outside {new : List α} {x : BitVec w} {size k : Nat} (outside : size ≤ (x - a).toNat)
    (inside : k + new.length ≤ size) (m : BitVec w → α) :
    store (a + BitVec.ofNat w k) new m x = m x := by
  have small := (x - a).isLt
  rw [store_get _ _ (by omega), List.getElem?_eq_none (offset_outside outside inside)]
  rfl

def Elements (m : BitVec w → α) (a : BitVec w) (size count : Nat) (blocks : Nat → List α) : Prop :=
  ∀ i, i < count → Holds m (a + BitVec.ofNat w (size * i)) (blocks i)

theorem Elements.store {blocks blocks' : Nat → List α} {size count i k : Nat} {new : List α}
    (held : Elements m a size count blocks) (inside : i < count) (fits : k + new.length ≤ size)
    (length : ∀ j, (blocks j).length = size) (short : size * count < 2 ^ w)
    (others : ∀ j, j ≠ i → blocks' j = blocks j)
    (here : Holds (Memory.store (a + BitVec.ofNat w (size * i) + BitVec.ofNat w k) new m)
      (a + BitVec.ofNat w (size * i)) (blocks' i)) :
    Elements (Memory.store (a + BitVec.ofNat w (size * i) + BitVec.ofNat w k) new m) a size count
      blocks' := by
  intro j bound
  by_cases same : j = i
  · rw [same]
    exact here
  · have behind (i : Nat) (inside : i < count) : size * i + size ≤ size * count := by
      rw [← Nat.mul_succ]
      exact Nat.mul_le_mul_left size inside
    have first := behind i inside
    have second := behind j bound
    have apart : size * i + size ≤ size * j ∨ size * j + size ≤ size * i := by
      rw [← Nat.mul_succ, ← Nat.mul_succ]
      rcases Nat.lt_or_gt_of_ne same with less | more
      · exact .inr (Nat.mul_le_mul_left size less)
      · exact .inl (Nat.mul_le_mul_left size more)
    rw [others j same, BitVec.add_assoc, ← BitVec.ofNat_add]
    have whole := length j
    exact (held j bound).elsewhere (by omega) (by omega) (by omega)

theorem Elements.set {blocks : Nat → List α} {size count i : Nat} {block : List α}
    (held : Elements m a size count blocks) (inside : i < count) (whole : block.length = size)
    (length : ∀ j, (blocks j).length = size) (short : size * count < 2 ^ w) :
    Elements (Memory.store (a + BitVec.ofNat w (size * i)) block m) a size count
      (Function.update blocks i block) := by
  have element : a + BitVec.ofNat w (size * i) + BitVec.ofNat w 0 =
      a + BitVec.ofNat w (size * i) := by
    rw [BitVec.add_assoc, ← BitVec.ofNat_add, Nat.add_zero]
  have fits : block.length < 2 ^ w := by
    have more : size * 1 ≤ size * count := Nat.mul_le_mul_left size (by omega)
    omega
  have stored := held.store (k := 0) inside (by rw [whole, Nat.zero_add]) length short
    (fun j other => Function.update_of_ne other block blocks) (by
      rw [element, Function.update_self]
      exact holds_store fits m _)
  rwa [element] at stored

section Encoded

variable {encode : β → List α} {n : Nat}

theorem length_flatMap_encode (width : ∀ v, (encode v).length = n) (values : List β) :
    (values.flatMap encode).length = n * values.length := by
  induction values with
  | nil => rfl
  | cons v values ih =>
      rw [List.flatMap_cons, List.length_append, width, ih, List.length_cons, Nat.mul_succ,
        Nat.add_comm]

theorem flatMap_split (encode : β → List α) {values : List β} {i : Nat}
    (bound : i < values.length) : values.flatMap encode =
      (values.take i).flatMap encode ++ encode values[i] ++
        (values.drop (i + 1)).flatMap encode := by
  have split : values = values.take i ++ values[i] :: values.drop (i + 1) := by
    rw [← List.drop_eq_getElem_cons bound, List.take_append_drop]
  conv_lhs => rw [split]
  rw [List.flatMap_append, List.flatMap_cons, List.append_assoc]

theorem flatMap_set (encode : β → List α) {values : List β} {i : Nat}
    (bound : i < values.length) (v : β) : (values.set i v).flatMap encode =
      (values.take i).flatMap encode ++ encode v ++ (values.drop (i + 1)).flatMap encode := by
  rw [List.set_eq_take_append_cons_drop, if_pos bound, List.flatMap_append, List.flatMap_cons,
    List.append_assoc]

theorem length_before (width : ∀ v, (encode v).length = n) {values : List β} {i : Nat}
    (bound : i < values.length) : ((values.take i).flatMap encode).length = n * i := by
  rw [length_flatMap_encode width, List.length_take, Nat.min_eq_left bound.le]

theorem Holds.set (width : ∀ v, (encode v).length = n) {values : List β}
    (held : Holds m a (values.flatMap encode)) {i : Nat} (bound : i < values.length)
    (short : n * values.length < 2 ^ w) (v : β) :
    Holds (store (a + BitVec.ofNat w (n * i)) (encode v) m) a
      ((values.set i v).flatMap encode) := by
  have parts := flatMap_split encode bound
  rw [parts] at held
  rw [flatMap_set encode bound, ← length_before width bound]
  refine held.update ((width v).trans (width _).symm) ?_
  rw [← parts, length_flatMap_encode width]
  exact short

end Encoded

end Memory
