import Mathlib.Data.Nat.Digits.Lemmas
import SchedOS.Console.Printf

set_option autoImplicit false

namespace SchedOS

namespace Console

def print (color : BitVec 32) (text : List Byte) (s : Console) : Console :=
  text.foldl (fun s c => s.putc c color) s

theorem print_append (color : BitVec 32) (text more : List Byte) (s : Console) :
    s.print color (text ++ more) = (s.print color text).print color more := by
  simp only [print, List.foldl_append]

@[simp] theorem putc_emitted (c : Byte) (color : BitVec 32) (s : Console) :
    (s.putc c color).emitted = s.emitted ++ [(c, color)] := by
  have stored (value : BitVec 16) (k : Nat) (s : Console) :
      ((store value)^[k] s).emitted = s.emitted := by
    induction k with
    | zero => rfl
    | succ k ih => rw [Function.iterate_succ_apply']; exact ih
  simp only [putc]
  split <;> split <;> simp only [stored, store]

theorem print_emitted (color : BitVec 32) (text : List Byte) (s : Console) :
    (s.print color text).emitted = s.emitted ++ text.map fun c => (c, color) := by
  induction text generalizing s with
  | nil => simp [print]
  | cons c text ih =>
      have rest := ih (s.putc c color)
      rw [putc_emitted, List.append_assoc] at rest
      exact rest

theorem putTimes_eq (c : Byte) (color : BitVec 32) (n : Int) (s : Console) :
    s.putTimes c color n = s.print color (List.replicate n.toNat c) := by
  unfold putTimes
  induction n.toNat generalizing s with
  | zero => rfl
  | succ k ih => exact ih (s.putc c color)

theorem putText_eq (color : BitVec 32) {n : Nat} {data : List Byte} (enough : n ≤ data.length)
    (s : Console) : s.putText color n data = some (s.print color (data.take n)) := by
  induction n generalizing data s with
  | zero => rfl
  | succ n ih =>
      cases data with
      | nil => simp at enough
      | cons b data =>
          rw [List.length_cons] at enough
          exact ih (by omega) (s.putc b color)

end Console

section Text

variable (flags : Nat → Bool) (width precision : Int) (field : Field) (len : Int)

def Field.padding : List Byte :=
  List.replicate (field.spaces flags width precision len).toNat (chr ' ')

def Field.signText : List Byte := if field.sign flags ≠ 0 then [field.sign flags] else []

def Field.body : List Byte :=
  field.signText flags ++
    List.replicate (field.zeros flags width precision len).toNat (chr '0') ++
      field.data.take len.toNat

def Field.text : List Byte :=
  if flags flagLeftjustify then
    field.body flags width precision len ++ field.padding flags width precision len
  else field.padding flags width precision len ++ field.body flags width precision len

variable {precision field len}

theorem Console.putField_eq (found : field.len precision = some len)
    (enough : len.toNat ≤ field.data.length) (color : BitVec 32) (s : Console) :
    s.putField flags width precision field color =
      some (s.print color (field.text flags width precision len)) := by
  have signed (s : Console) :
      (if field.sign flags ≠ 0 then s.putc (field.sign flags) color else s) =
        s.print color (field.signText flags) := by
    unfold Field.signText
    split <;> rfl
  simp only [Console.putField, found, Console.putTimes_eq, signed, Console.putText_eq color enough,
    Option.bind_eq_bind, Option.bind_some, Option.pure_def]
  cases left : flags flagLeftjustify with
  | true =>
      simp [Field.text, left, Field.body, Field.padding, Console.print_append]
  | false =>
      -- What the last loop finds of the width is not positive any more.
      have used : (if field.spaces flags width precision len > 0 then 0
          else field.spaces flags width precision len).toNat = 0 := by
        split <;> omega
      simp only [Bool.false_eq_true, not_false_eq_true, if_true, true_and, used, Field.text, left,
        if_false, Field.body, Field.padding, Console.print_append]
      rfl

end Text

theorem strlen_some {data : List Byte} (ended : 0 ∈ data) :
    ∃ n, strlen data = some n ∧ n ≤ data.length := by
  induction data with
  | nil => simp at ended
  | cons b data ih =>
      by_cases zero : b = 0
      · exact ⟨0, by rw [strlen, if_pos zero], Nat.zero_le _⟩
      · obtain ⟨n, found, least⟩ := ih ((List.mem_cons.mp ended).resolve_left (Ne.symm zero))
        exact ⟨n + 1, by rw [strlen, if_neg zero, found]; rfl, by simpa using least⟩

theorem strnlen_some {data : List Byte} (ended : 0 ∈ data) (maxlen : Nat) :
    ∃ n, strnlen data maxlen = some n ∧ n ≤ data.length := by
  induction maxlen generalizing data with
  | zero => exact ⟨0, by rw [strnlen], Nat.zero_le _⟩
  | succ maxlen ih =>
      cases data with
      | nil => simp at ended
      | cons b data =>
          by_cases zero : b = 0
          · exact ⟨0, by rw [strnlen, if_pos zero], Nat.zero_le _⟩
          · obtain ⟨n, found, least⟩ := ih ((List.mem_cons.mp ended).resolve_left (Ne.symm zero))
            exact ⟨n + 1, by rw [strnlen, if_neg zero, found]; rfl, by simpa using least⟩

theorem Field.len_some {field : Field} (ended : 0 ∈ field.data) (precision : Int) :
    ∃ len, field.len precision = some len ∧ len.toNat ≤ field.data.length := by
  have wrapped (n : Nat) : (wrapInt n).toNat ≤ n := by
    unfold wrapInt
    omega
  unfold Field.len
  split
  · obtain ⟨n, found, least⟩ := strnlen_some ended precision.toNat
    exact ⟨wrapInt n, by rw [found]; rfl, (wrapped n).trans least⟩
  · obtain ⟨n, found, least⟩ := strlen_some ended
    exact ⟨wrapInt n, by rw [found]; rfl, (wrapped n).trans least⟩

def numeral (base : Nat) (digits : List Byte) (val : Nat) : List Byte :=
  (if val = 0 then [0] else Nat.digits base val).reverse.map fun d => digits.getD d 0

section Numerals

variable {base : Nat} (digits : List Byte) {val : Nat}

theorem numeral_last (less : val < base) : numeral base digits val = [digits.getD val 0] := by
  by_cases zero : val = 0
  · rw [numeral, if_pos zero, zero]
    rfl
  · rw [numeral, if_neg zero, Nat.digits_of_lt base val zero less]
    rfl

theorem numeral_step (large : 1 < base) (more : val / base ≠ 0) :
    numeral base digits val =
      numeral base digits (val / base) ++ [digits.getD (val % base) 0] := by
  have positive : val ≠ 0 := by
    rintro rfl
    exact more (Nat.zero_div base)
  rw [numeral, if_neg positive, numeral, if_neg more, Nat.digits_def' large (by omega),
    List.reverse_cons, List.map_append]
  rfl

theorem fillDigits_eq (large : 1 < base) {room : Nat} (some_room : 0 < room)
    (fits : val < base ^ room) (text : List Byte) :
    ∃ left, fillDigits base digits room text val =
      some (left, numeral base digits val ++ text) := by
  induction room generalizing val text with
  | zero => omega
  | succ room ih =>
      by_cases more : val / base = 0
      · have less : val < base := (Nat.div_eq_zero_iff_lt (by omega)).mp more
        refine ⟨room, ?_⟩
        rw [fillDigits, if_neg (not_not.mpr more), numeral_last digits less, Nat.mod_eq_of_lt less]
        rfl
      · have rest : val / base < base ^ room := Nat.div_lt_of_lt_mul (by rwa [pow_succ'] at fits)
        have next : 0 < room := by
          rcases Nat.eq_zero_or_pos room with rfl | next
          · rw [pow_zero] at rest
            exact absurd (Nat.lt_one_iff.mp rest) more
          · exact next
        obtain ⟨left, filled⟩ := ih next rest (digits.getD (val % base) 0 :: text)
        refine ⟨left, ?_⟩
        rw [fillDigits, if_pos more, filled, numeral_step digits large more, List.append_assoc]
        rfl

end Numerals

def numberBytes (val base : Nat) (digits : List Byte) (precision : Int) : List Byte :=
  if precision ≠ 0 ∨ val ≠ 0 then numeral base digits val else []

structure Numerals (base : Nat) (digits : List Byte) : Prop where
  large : 1 < base
  fits : 2 ^ 32 ≤ base ^ 19
  length : digits.length = 16
  most : base ≤ 16
  nonzero : ∀ b ∈ digits, b ≠ 0
  distinct : digits.Nodup
  zero : digits.getD 0 0 = chr '0'
  plain : ∀ b ∈ digits, b ≠ chr ' ' ∧ b ≠ chr '+' ∧ b ≠ chr '-'

theorem upperDecimal : Numerals 10 upperDigits := by
  constructor <;> decide

theorem lowerHexadecimal : Numerals 16 lowerDigits := by
  constructor <;> decide

theorem upperHexadecimal : Numerals 16 upperDigits := by
  constructor <;> decide

section Numbers

variable {base : Nat} {digits : List Byte} (known : Numerals base digits)

include known

theorem digit_mem {d : Nat} (less : d < base) : digits.getD d 0 ∈ digits := by
  have inside : d < digits.length := by
    rw [known.length]
    exact less.trans_le known.most
  rw [List.getD_eq_getElem _ _ inside]
  exact List.getElem_mem inside

theorem numeral_digits (val : Nat) :
    ∀ b ∈ numeral base digits val, ∃ d, d < base ∧ b = digits.getD d 0 := by
  intro b member
  simp only [numeral, List.mem_map, List.mem_reverse] at member
  obtain ⟨d, inside, rfl⟩ := member
  refine ⟨d, ?_, rfl⟩
  split at inside
  · rw [List.mem_singleton] at inside
    have := known.large
    omega
  · exact Nat.digits_lt_base known.large inside

def numberString (val : Nat) (precision : Int) : CString where
  bytes := numberBytes val base digits precision
  nonzero := by
    intro b member
    unfold numberBytes at member
    split at member
    · obtain ⟨d, less, rfl⟩ := numeral_digits known val b member
      exact known.nonzero _ (digit_mem known less)
    · simp at member

theorem fillNumbuf_eq {val : Nat} (word : val < 2 ^ 32) (precision : Int) :
    ∃ left, fillNumbuf numbufsiz val base digits precision =
      some (left, numberBytes val base digits precision ++ [0]) := by
  have step : fillNumbuf numbufsiz val base digits precision =
      if precision ≠ 0 ∨ val ≠ 0 then fillDigits base digits 19 [0] val else some (19, [0]) := rfl
  rw [step, numberBytes]
  split
  · exact fillDigits_eq digits known.large (by decide) (word.trans_le known.fits) [0]
  · exact ⟨19, rfl⟩

theorem number_eq {val : Nat} (word : val < 2 ^ 32) (precision : Int) (negative : Bool) :
    number val base digits precision negative =
      some (.field ⟨(numberString known val precision).memory, true, negative⟩) := by
  obtain ⟨left, filled⟩ := fillNumbuf_eq known word precision
  rw [number, filled]
  rfl

end Numbers

end SchedOS
