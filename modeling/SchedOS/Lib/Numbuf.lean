import SchedOS.Boot.Elf
import SchedOS.Console.Field

set_option autoImplicit false

namespace SchedOS

namespace Lib

-- `do { *--numbuf_end = digits[val % base]; val /= base; } while (val != 0);`
def fillNumbufPass (base : BitVec 32) (digits : List Byte) :
    BitVec 32 × BitVec 32 × Bytes → Loop.Pass (BitVec 32 × BitVec 32 × Bytes) (BitVec 32 × Bytes)
  | (numbufEnd, val, m) =>
      let numbufEnd := numbufEnd - 1
      let m := Function.update m numbufEnd (digits.getD (val % base).toNat 0)
      let val := val / base
      if val ≠ 0 then .again (numbufEnd, val, m) else .leave (numbufEnd, m)

/-- `fill_numbuf`, with fuel for its loop: the pointer it returns and the memory. -/
def fillNumbuf (fuel : Nat) (numbufEnd val base : BitVec 32) (digits : List Byte)
    (precision : Int) (m : Bytes) : Option (BitVec 32 × Bytes) :=
  let numbufEnd := numbufEnd - 1
  let m := Function.update m numbufEnd 0
  if precision ≠ 0 ∨ val ≠ 0 then
    Loop.run (fillNumbufPass base digits) fuel (numbufEnd, val, m)
  else some (numbufEnd, m)

end Lib

def HoldsBytes (m : Bytes) (p : BitVec 32) (bytes : List Byte) : Prop :=
  ∀ i, i < bytes.length → m (p + BitVec.ofNat 32 i) = bytes.getD i 0

def digitValue (c : Byte) : Nat :=
  if upperDigits.contains c then upperDigits.idxOf c else lowerDigits.idxOf c

structure Shows (base val : Nat) (precision : Int) (text : List Byte) : Prop where
  digits : ∀ c ∈ text, c ≠ 0 ∧ digitValue c < base
  value : Nat.ofDigits base (text.reverse.map digitValue) = val
  leading : val ≠ 0 → ∃ c rest, text = c :: rest ∧ c ≠ chr '0'
  zero : val = 0 → text = if precision = 0 then [] else [chr '0']

section Fill

variable {base : BitVec 32} {digits : List Byte}

theorem holdsBytes_cons {m : Bytes} {p : BitVec 32} {text : List Byte}
    (holds : HoldsBytes m (p + 1) text) (short : text.length < 2 ^ 32 - 1) (c : Byte) :
    HoldsBytes (Function.update m p c) p (c :: text) := by
  intro i less
  rw [List.length_cons] at less
  cases i with
  | zero =>
      have first : p + BitVec.ofNat 32 0 = p := BitVec.add_zero p
      rw [first, Function.update_self]
      rfl
  | succ i =>
      have next : p + BitVec.ofNat 32 (i + 1) = p + 1 + BitVec.ofNat 32 i := by
        rw [Nat.add_comm i 1]
        exact (address_add p 1 i).symm
      have other : p + BitVec.ofNat 32 (i + 1) ≠ p := by bv_omega
      rw [Function.update_of_ne other, next, holds i (by omega)]
      rfl

theorem fillNumbufPass_eq (base : BitVec 32) (digits : List Byte) (numbuf : BitVec 32) (room : Nat)
    (val : BitVec 32) (m : Bytes) :
    Lib.fillNumbufPass base digits (numbuf + BitVec.ofNat 32 (room + 1), val, m) =
      let filled := Function.update m (numbuf + BitVec.ofNat 32 room)
        (digits.getD (val % base).toNat 0)
      if val / base ≠ 0 then .again (numbuf + BitVec.ofNat 32 room, val / base, filled)
      else .leave (numbuf + BitVec.ofNat 32 room, filled) := by
  simp only [Lib.fillNumbufPass, Memory.address_pred]

theorem fill_run (numbuf : BitVec 32) {room : Nat} {text out : List Byte} {val : BitVec 32}
    {left : Nat} (filled : fillDigits base.toNat digits room text val.toNat = some (left, out))
    (short : room + text.length ≤ numbufsiz) (m : Bytes)
    (holds : HoldsBytes m (numbuf + BitVec.ofNat 32 room) text) :
    ∃ m', Loop.run (Lib.fillNumbufPass base digits) room
        (numbuf + BitVec.ofNat 32 room, val, m) = some (numbuf + BitVec.ofNat 32 left, m') ∧
      HoldsBytes m' (numbuf + BitVec.ofNat 32 left) out ∧
      left + out.length = room + text.length ∧
      ∀ x, ¬ (x - numbuf).toNat < room → m' x = m x := by
  induction room generalizing text val m with
  | zero => cases filled
  | succ room ih =>
      unfold numbufsiz at short
      rw [← address_add numbuf room 1] at holds
      have digit : (val % base).toNat = val.toNat % base.toNat := BitVec.toNat_umod
      have quotient : (val / base).toNat = val.toNat / base.toNat := BitVec.toNat_udiv
      have next := holdsBytes_cons holds (by omega) (digits.getD (val % base).toNat 0)
      have same (x : BitVec 32) (outside : ¬ (x - numbuf).toNat < room + 1) :
          Function.update m (numbuf + BitVec.ofNat 32 room) (digits.getD (val % base).toNat 0) x =
            m x :=
        Function.update_of_ne (by bv_omega) _ _
      have placed : room + (text.length + 1) = room + 1 + text.length := by omega
      have pass := fillNumbufPass_eq base digits numbuf room val m
      rw [fillDigits, ← digit, ← quotient] at filled
      by_cases more : val / base ≠ 0
      · have moreDigits : (val / base).toNat ≠ 0 := fun zero => more (BitVec.eq_of_toNat_eq zero)
        rw [if_pos moreDigits] at filled
        have shorter : room + (digits.getD (val % base).toNat 0 :: text).length ≤ numbufsiz := by
          rw [List.length_cons]
          unfold numbufsiz
          omega
        obtain ⟨m', ended, kept, length, frame⟩ := ih filled shorter _ next
        rw [List.length_cons] at length
        refine ⟨m', ?_, kept, length.trans placed, fun x outside => ?_⟩
        · rw [Loop.run_again (pass.trans (if_pos more))]
          exact ended
        · rw [frame x (by omega), same x outside]
      · have last : ¬ (val / base).toNat ≠ 0 := by
          rw [not_not.mp more]
          exact not_not.mpr rfl
        rw [if_neg last] at filled
        cases filled
        exact ⟨_, Loop.run_leave (pass.trans (if_neg more)) _, next, placed, same⟩

theorem fillNumbuf_refines (numbuf : BitVec 32) {val : BitVec 32} {precision : Int} {left : Nat}
    {out : List Byte}
    (filled : fillNumbuf numbufsiz val.toNat base.toNat digits precision = some (left, out))
    (m : Bytes) :
    ∃ fuel m', Lib.fillNumbuf fuel (numbuf + BitVec.ofNat 32 numbufsiz) val base digits precision m
        = some (numbuf + BitVec.ofNat 32 left, m') ∧
      HoldsBytes m' (numbuf + BitVec.ofNat 32 left) out ∧ left + out.length = numbufsiz ∧
      ∀ x, ¬ (x - numbuf).toNat < numbufsiz → m' x = m x := by
  have step : fillNumbuf numbufsiz val.toNat base.toNat digits precision =
      if precision ≠ 0 ∨ val.toNat ≠ 0 then fillDigits base.toNat digits 19 [0] val.toNat
      else some (19, [0]) := rfl
  have down : numbuf + BitVec.ofNat 32 numbufsiz - 1 = numbuf + BitVec.ofNat 32 19 :=
    Memory.address_pred numbuf 19
  have first : HoldsBytes (Function.update m (numbuf + BitVec.ofNat 32 19) 0)
      (numbuf + BitVec.ofNat 32 19) [0] :=
    holdsBytes_cons (fun _ less => absurd less (Nat.not_lt_zero _)) (by decide) 0
  have same (x : BitVec 32) (outside : ¬ (x - numbuf).toNat < numbufsiz) :
      Function.update m (numbuf + BitVec.ofNat 32 19) 0 x = m x := by
    unfold numbufsiz at outside
    exact Function.update_of_ne (by bv_omega) _ _
  have zero : val.toNat = 0 ↔ val = 0 :=
    ⟨fun zero => BitVec.eq_of_toNat_eq zero, fun zero => by rw [zero]; rfl⟩
  rw [step] at filled
  simp only [Lib.fillNumbuf, down]
  by_cases shown : precision ≠ 0 ∨ val ≠ 0
  · rw [if_pos (by rwa [Ne, Ne, zero])] at filled
    obtain ⟨m', ended, holds, length, frame⟩ := fill_run numbuf filled (by decide) _ first
    refine ⟨19, m', ?_, holds, length, fun x outside => ?_⟩
    · rw [if_pos shown]
      exact ended
    · have above : ¬ (x - numbuf).toNat < 19 := fun below => outside (below.trans (by decide))
      rw [frame x above, same x outside]
  · rw [if_neg (by rwa [Ne, Ne, zero])] at filled
    cases filled
    exact ⟨0, _, if_neg shown, first, rfl, same⟩

end Fill

section Value

variable {base : Nat} {digits : List Byte}

theorem lowerDecimal : Numerals 10 lowerDigits := by
  constructor <;> decide

theorem upperValue : ∀ d, d < 16 → digitValue (upperDigits.getD d 0) = d := by
  decide

theorem lowerValue : ∀ d, d < 16 → digitValue (lowerDigits.getD d 0) = d := by
  decide

variable (known : Numerals base digits)
  (values : ∀ d, d < base → digitValue (digits.getD d 0) = d)

include known values

theorem numeral_value (val : Nat) :
    Nat.ofDigits base ((numeral base digits val).reverse.map digitValue) = val := by
  have read (ds : List Nat) (small : ∀ d ∈ ds, d < base) :
      (ds.reverse.map fun d => digits.getD d 0).reverse.map digitValue = ds := by
    simp only [List.map_reverse, List.reverse_reverse, List.map_map]
    have same : ds.map (digitValue ∘ fun d => digits.getD d 0) = ds.map id :=
      List.map_congr_left fun d member => values d (small d member)
    rw [same, List.map_id]
  unfold numeral
  split
  · next zero =>
      have large := known.large
      rw [read [0] (by simpa using by omega), zero]
      rfl
  · rw [read _ fun d member => Nat.digits_lt_base known.large member, Nat.ofDigits_digits]

theorem numeral_leading {val : Nat} (positive : val ≠ 0) :
    ∃ c rest, numeral base digits val = c :: rest ∧ c ≠ chr '0' := by
  have some_digit : Nat.digits base val ≠ [] := Nat.digits_ne_nil_iff_ne_zero.mpr positive
  have most := Nat.getLast_digit_ne_zero base positive
  have small := Nat.digits_lt_base known.large (List.getLast_mem some_digit)
  have shape : (Nat.digits base val).reverse =
      (Nat.digits base val).getLast some_digit :: (Nat.digits base val).dropLast.reverse :=
    (congrArg List.reverse (List.dropLast_append_getLast some_digit).symm).trans
      List.reverse_concat
  refine ⟨digits.getD ((Nat.digits base val).getLast some_digit) 0,
    (Nat.digits base val).dropLast.reverse.map (fun d => digits.getD d 0), ?_, fun zero => ?_⟩
  · rw [numeral, if_neg positive, shape, List.map_cons]
  · have value := values _ small
    rw [zero] at value
    exact most (value.symm.trans (by decide))

theorem numberBytes_shows (val : Nat) (precision : Int) :
    Shows base val precision (numberBytes val base digits precision) := by
  have hidden (empty : ¬ (precision ≠ 0 ∨ val ≠ 0)) : precision = 0 ∧ val = 0 := by
    rwa [not_or, not_not, not_not] at empty
  constructor
  · intro c member
    unfold numberBytes at member
    split at member
    · obtain ⟨d, less, rfl⟩ := numeral_digits known val c member
      exact ⟨known.nonzero _ (digit_mem known less), by rwa [values d less]⟩
    · cases member
  · unfold numberBytes
    split
    · exact numeral_value known values val
    · next empty => exact (hidden empty).2.symm
  · intro positive
    rw [numberBytes, if_pos (.inr positive)]
    exact numeral_leading known values positive
  · rintro rfl
    unfold numberBytes
    by_cases none : precision = 0
    · rw [if_neg (by simp [none]), if_pos none]
    · have one : (0 : Nat) < base := known.large.pos
      rw [if_pos (.inl none), if_neg none, numeral_last digits one, known.zero]

end Value

theorem fillNumbuf_inverse {base : BitVec 32} (bases : base = 10 ∨ base = 16) {digits : List Byte}
    (table : digits = upperDigits ∨ digits = lowerDigits) (numbuf val : BitVec 32)
    (precision : Int) (m : Bytes) :
    ∃ fuel p m' text,
      Lib.fillNumbuf fuel (numbuf + BitVec.ofNat 32 numbufsiz) val base digits precision m =
        some (p, m') ∧
      HoldsBytes m' p (text ++ [0]) ∧ Shows base.toNat val.toNat precision text ∧
      (p - numbuf).toNat + text.length + 1 = numbufsiz ∧
      ∀ x, ¬ (x - numbuf).toNat < numbufsiz → m' x = m x := by
  have known : Numerals base.toNat digits := by
    rcases bases with rfl | rfl <;> rcases table with rfl | rfl
    · exact upperDecimal
    · exact lowerDecimal
    · exact upperHexadecimal
    · exact lowerHexadecimal
  have values (d : Nat) (less : d < base.toNat) : digitValue (digits.getD d 0) = d := by
    have small := less.trans_le known.most
    rcases table with rfl | rfl
    · exact upperValue d small
    · exact lowerValue d small
  obtain ⟨left, filled⟩ := fillNumbuf_eq known val.isLt precision
  obtain ⟨fuel, m', ended, holds, length, frame⟩ := fillNumbuf_refines numbuf filled m
  refine ⟨fuel, _, m', _, ended, holds, numberBytes_shows known values val.toNat precision, ?_,
    frame⟩
  rw [List.length_append, List.length_singleton] at length
  have small : left < 2 ^ 32 := by
    unfold numbufsiz at length
    omega
  rw [add_sub_cancel_left, BitVec.toNat_ofNat, Nat.mod_eq_of_lt small]
  omega

theorem fillNumbuf_inverse_hexadecimal : ∃ fuel p m' text,
    Lib.fillNumbuf fuel (0x1000 + BitVec.ofNat 32 numbufsiz) 0xBEEF 16 lowerDigits (-1)
      (fun _ => 0xAA) = some (p, m') ∧
    HoldsBytes m' p (text ++ [0]) ∧ Shows 16 0xBEEF (-1) text ∧
    (p - 0x1000).toNat + text.length + 1 = numbufsiz ∧
    ∀ x, ¬ (x - 0x1000).toNat < numbufsiz → m' x = 0xAA :=
  fillNumbuf_inverse (.inr rfl) (.inr rfl) 0x1000 0xBEEF (-1) (fun _ => 0xAA)

end SchedOS
