import SchedOS.Console.Directive

set_option autoImplicit false

namespace SchedOS

inductive NumberConversion where
  | d
  | u
  | x
  | X

namespace NumberConversion

def letter : NumberConversion → Byte
  | .d => chr 'd'
  | .u => chr 'u'
  | .x => chr 'x'
  | .X => chr 'X'

def base : NumberConversion → Nat
  | .d | .u => 10
  | .x | .X => 16

def digits : NumberConversion → List Byte
  | .x => lowerDigits
  | .d | .u | .X => upperDigits

def value (n : NumberConversion) (word : BitVec 32) : Int :=
  match n with
  | .d => word.toInt
  | .u | .x | .X => word.toNat

variable (n : NumberConversion)

theorem numerals : Numerals n.base n.digits := by
  cases n with
  | d => exact upperDecimal
  | u => exact upperDecimal
  | x => exact lowerHexadecimal
  | X => exact upperHexadecimal

theorem is_letter : Letter n.letter := by
  cases n <;> constructor <;> decide

theorem value_word (word : BitVec 32) : (n.value word).natAbs < 2 ^ 32 := by
  have := word.isLt
  cases n with
  | d => simp only [value, BitVec.toInt_eq_toNat_cond]; omega
  | u => simp only [value]; omega
  | x => simp only [value]; omega
  | X => simp only [value]; omega

theorem convert_eq (args : Nat → Argument) (precision : Int) (before rest : List Byte) (val : Nat) :
    convert args precision ⟨before, n.letter :: rest⟩ val =
      some (.field ⟨(numberString n.numerals (n.value (args val).word).natAbs precision).memory,
        true, decide (n.value (args val).word < 0)⟩, ⟨before, n.letter :: rest⟩, val + 1) := by
  have word := value_word n (args val).word
  have signed (w : BitVec 32) : (if w.toInt > 0 then w else -w).toNat = w.toInt.natAbs := by
    have := w.isLt
    rw [BitVec.toInt_eq_toNat_cond]
    by_cases positive : 2 * w.toNat < 2 ^ 32
    · rw [if_pos positive]
      split
      · omega
      · rw [BitVec.toNat_neg]
        omega
    · rw [if_neg positive, if_neg (by omega), BitVec.toNat_neg]
      omega
  have unsigned (w : BitVec 32) : decide ((w.toNat : Int) < 0) = false :=
    decide_eq_false (by omega)
  unfold convert
  simp only [Pointer.read, List.head?_cons, Option.bind_eq_bind, Option.bind_some]
  cases n with
  | d =>
      have made := number_eq upperDecimal word precision (decide ((args val).word.toInt < 0))
      rw [letter, if_pos rfl, signed]
      exact congrArg (Option.bind · _) made
  | u =>
      have made := number_eq upperDecimal word precision false
      rw [letter, if_neg (by decide), if_pos rfl, value, unsigned]
      exact congrArg (Option.bind · _) made
  | x =>
      have made := number_eq lowerHexadecimal word precision false
      rw [letter, if_neg (by decide), if_neg (by decide), if_pos rfl, value, unsigned]
      exact congrArg (Option.bind · _) made
  | X =>
      have made := number_eq upperHexadecimal word precision false
      rw [letter, if_neg (by decide), if_neg (by decide), if_neg (by decide), if_pos rfl, value,
        unsigned]
      exact congrArg (Option.bind · _) made

end NumberConversion

def splitSign : List Byte → Bool × List Byte
  | [] => (false, [])
  | c :: rest =>
      if c = chr '-' then (true, rest)
      else if c = chr '+' then (false, rest)
      else (false, c :: rest)

def signAndDigits (text : List Byte) : Bool × List Byte := splitSign (text.filter (· ≠ chr ' '))

def digitsValue (base : Nat) (digits text : List Byte) : Nat :=
  Nat.ofDigits base (text.reverse.map fun c => digits.idxOf c)

structure ReadsBack (base : Nat) (digits : List Byte) (value least : Int) (text : List Byte) :
    Prop where
  inside : ∀ c ∈ (signAndDigits text).2, c ∈ digits.take base
  same : (if (signAndDigits text).1 then -(digitsValue base digits (signAndDigits text).2 : Int)
    else digitsValue base digits (signAndDigits text).2) = value
  enough : least ≤ (signAndDigits text).2.length

section Reading

variable {base : Nat} {digits : List Byte} (known : Numerals base digits)

include known

theorem digit_take {d : Nat} (less : d < base) : digits.getD d 0 ∈ digits.take base := by
  have inside : d < digits.length := by
    rw [known.length]
    exact less.trans_le known.most
  rw [List.getD_eq_getElem _ _ inside]
  exact List.mem_take_iff_getElem.mpr ⟨d, by omega, rfl⟩

theorem digit_index {d : Nat} (less : d < base) : digits.idxOf (digits.getD d 0) = d := by
  have inside : d < digits.length := by
    rw [known.length]
    exact less.trans_le known.most
  rw [List.getD_eq_getElem _ _ inside]
  exact known.distinct.idxOf_getElem d inside

theorem digits_value (val zeros k : Nat) (precision : Int) :
    digitsValue base digits (List.replicate zeros (chr '0') ++
      (numberBytes val base digits precision).take k) =
        val / base ^ ((Nat.digits base val).length - k) := by
  have zero : digits.idxOf (chr '0') = 0 := by
    rw [← known.zero]
    exact digit_index known (by have := known.large; omega)
  unfold digitsValue
  rw [List.reverse_append, List.reverse_replicate, List.map_append, List.map_replicate, zero,
    Nat.ofDigits_append_replicate_zero]
  by_cases none : val = 0
  · -- There is at most one digit, which is 0.
    have zeros (c : Byte) (member : c ∈ numberBytes val base digits precision) : c = chr '0' := by
      unfold numberBytes at member
      split at member
      · rw [none, numeral_last digits (by have := known.large; omega), known.zero] at member
        exact List.mem_singleton.mp member
      · simp at member
    have read : ∀ d ∈ ((numberBytes val base digits precision).take k).reverse.map
        (fun c => digits.idxOf c), d = 0 := by
      intro d member
      obtain ⟨c, inside, rfl⟩ := List.mem_map.mp member
      rw [zeros c (List.mem_of_mem_take (List.mem_reverse.mp inside)), zero]
    rw [List.eq_replicate_of_mem read, Nat.ofDigits_replicate_zero, none, Nat.zero_div]
  · have read : ((numberBytes val base digits precision).take k).reverse.map
        (fun c => digits.idxOf c) =
          (Nat.digits base val).drop ((Nat.digits base val).length - k) := by
      rw [numberBytes, if_pos (.inr none), numeral, if_neg none, ← List.map_take,
        List.take_reverse, ← List.map_reverse, List.reverse_reverse, List.map_map]
      refine (List.map_congr_left fun d member => ?_).trans (List.map_id _)
      exact digit_index known (Nat.digits_lt_base known.large (List.mem_of_mem_drop member))
    rw [read, Nat.self_div_pow_eq_ofDigits_drop _ _ known.large]

theorem digits_inside (val zeros k : Nat) (precision : Int) :
    ∀ c ∈ List.replicate zeros (chr '0') ++ (numberBytes val base digits precision).take k,
      c ∈ digits.take base := by
  intro c member
  rcases List.mem_append.mp member with zero | digit
  · rw [(List.mem_replicate.mp zero).2, ← known.zero]
    exact digit_take known (by have := known.large; omega)
  · have inside := List.mem_of_mem_take digit
    unfold numberBytes at inside
    split at inside
    · obtain ⟨d, less, rfl⟩ := numeral_digits known val c inside
      exact digit_take known less
    · simp at inside

variable {flags : Nat → Bool} {width precision : Int} {val : Nat} {negative : Bool} {len : Int}

theorem text_split (enough : len.toNat ≤ (numberBytes val base digits precision).length) :
    let field : Field := ⟨(numberString known val precision).memory, true, negative⟩
    signAndDigits (field.text flags width precision len) =
      (negative, List.replicate (field.zeros flags width precision len).toNat (chr '0') ++
        (numberBytes val base digits precision).take len.toNat) := by
  intro field
  have shown : (field.data.take len.toNat) =
      (numberBytes val base digits precision).take len.toNat := by
    change (numberBytes val base digits precision ++ [0]).take len.toNat = _
    rw [List.take_append_of_le_length enough]
  have inside := digits_inside known val (field.zeros flags width precision len).toNat len.toNat
    precision
  rw [← shown] at inside ⊢
  generalize printed : List.replicate (field.zeros flags width precision len).toNat (chr '0') ++
    field.data.take len.toNat = text at inside ⊢
  have plain (c : Byte) (member : c ∈ text) :=
    known.plain c (List.mem_of_mem_take (inside c member))
  have kept : text.filter (· ≠ chr ' ') = text :=
    List.filter_eq_self.mpr fun c member => decide_eq_true (plain c member).1
  have spaces : (field.padding flags width precision len).filter (· ≠ chr ' ') = [] := by
    simp [Field.padding]
  have filtered : (field.text flags width precision len).filter (· ≠ chr ' ') =
      (field.signText flags).filter (· ≠ chr ' ') ++ text := by
    have body : field.body flags width precision len = field.signText flags ++ text := by
      rw [Field.body, List.append_assoc, printed]
    unfold Field.text
    rw [body]
    split <;> simp only [List.filter_append, spaces, kept, List.append_nil, List.nil_append]
  -- Without a sign the text starts with a digit, if at all.
  have unsigned : splitSign text = (false, text) := by
    cases text with
    | nil => rfl
    | cons c rest =>
        obtain ⟨-, plus, minus⟩ := plain c List.mem_cons_self
        rw [splitSign, if_neg minus, if_neg plus]
  unfold signAndDigits
  rw [filtered]
  unfold Field.signText Field.sign
  cases negative with
  | true => rfl
  | false =>
      have positive : ¬ (field.numeric = true ∧ field.negative = true) := by simp [field]
      simp only [if_neg positive]
      by_cases plus : flags flagPluspositive = true
      · simp only [if_pos plus]
        rfl
      · simp only [if_neg plus]
        by_cases space : flags flagSpacepositive = true
        · simp only [if_pos space]
          exact unsigned
        · simp only [if_neg space]
          exact unsigned

theorem reads_back_iff (flags : Nat → Bool) (width : Int) (negative : Bool) (least : Int)
    (enough : len.toNat ≤ (numberBytes val base digits precision).length) :
    let field : Field := ⟨(numberString known val precision).memory, true, negative⟩
    ReadsBack base digits (if negative then -(val : Int) else val) least
        (field.text flags width precision len) ↔
      (Nat.digits base val).length ≤ len.toNat ∧
        least ≤ (field.zeros flags width precision len).toNat + len.toNat := by
  intro field
  have split := @text_split _ _ known flags width _ _ negative _ enough
  have count : (List.replicate (field.zeros flags width precision len).toNat (chr '0') ++
      (numberBytes val base digits precision).take len.toNat).length =
        (field.zeros flags width precision len).toNat + len.toNat := by
    rw [List.length_append, List.length_replicate, List.length_take, min_eq_left enough]
  have value := digits_value known val (field.zeros flags width precision len).toNat len.toNat
    precision
  have cut : val / base ^ ((Nat.digits base val).length - len.toNat) = val ↔
      (Nat.digits base val).length ≤ len.toNat := by
    constructor
    · intro same
      by_contra short
      have large : 1 < base ^ ((Nat.digits base val).length - len.toNat) :=
        Nat.one_lt_pow (by omega) known.large
      have positive : 0 < val := by
        rcases Nat.eq_zero_or_pos val with rfl | positive
        · simp at short
        · exact positive
      exact absurd same (Nat.div_lt_self positive large).ne
    · intro whole
      rw [Nat.sub_eq_zero_of_le whole, pow_zero, Nat.div_one]
  constructor
  · rintro ⟨-, same, enough⟩
    rw [split, value] at same
    rw [split, count] at enough
    refine ⟨cut.mp ?_, by exact_mod_cast enough⟩
    cases negative with
    | true =>
        simp only [if_true, neg_inj] at same
        exact_mod_cast same
    | false =>
        simp only [Bool.false_eq_true, if_false] at same
        exact_mod_cast same
  · rintro ⟨whole, enough⟩
    refine ⟨?_, ?_, ?_⟩
    · rw [split]
      exact digits_inside known val _ _ precision
    · rw [split, value, cut.mpr whole]
    · rw [split, count]
      exact_mod_cast enough

theorem numberBytes_length (precision : Int) (word : val < 2 ^ 32) :
    (numberBytes val base digits precision).length ≤ 19 ∧
      ((Nat.digits base val).length ≤ (numberBytes val base digits precision).length) := by
  have bound : (Nat.digits base val).length ≤ 19 :=
    (Nat.digits_length_le_iff known.large val).mpr (word.trans_le known.fits)
  unfold numberBytes numeral
  by_cases zero : val = 0
  · rw [zero, if_pos rfl]
    split <;> simp
  · rw [if_pos (.inr zero), if_neg zero, List.length_map, List.length_reverse]
    exact ⟨bound, le_rfl⟩

-- How many digits are printed; there are too few of them for `len` to wrap.
theorem number_len (precision : Int) (negative : Bool) (word : val < 2 ^ 32) :
    (Field.mk (numberString known val precision).memory true negative).len precision =
      some ((if precision ≥ 0 then
          min precision.toNat (numberBytes val base digits precision).length
        else (numberBytes val base digits precision).length : Nat) : Int) := by
  have few := (numberBytes_length known precision word).1
  rw [@Field.len_memory _ (numberString known val precision) rfl, wrapInt_eq]
  · rfl
  · omega
  · change ((if precision ≥ 0 then
        min precision.toNat (numberBytes val base digits precision).length
      else (numberBytes val base digits precision).length : Nat) : Int) ≤ 2147483647
    split <;> omega

end Reading

def Directive.asked (d : Directive) (args : Nat → Argument) (val : Nat) : Int :=
  match d.precision with
  | .absent => 0
  | .literal digits => literalValue digits
  | .argument => (args (val + d.widthArguments)).word.toInt

theorem Directive.precisionValue_asked {d : Directive} (args : Nat → Argument) (val : Nat)
    (present : d.precision ≠ .absent) :
    0 ≤ d.precisionValue args val ∧ d.precisionValue args val ≤ 2147483647 ∧
      (d.asked args val ≤ 2147483647 → d.precisionValue args val = max 0 (d.asked args val)) := by
  unfold Directive.precisionValue Directive.asked
  cases which : d.precision with
  | absent => exact absurd which present
  | literal digits =>
      simp only
      have range : wrapInt (literalValue digits) ≤ 2147483647 := by
        unfold wrapInt
        omega
      refine ⟨le_max_left _ _, by omega, fun fits => ?_⟩
      rw [wrapInt_eq (by omega) fits]
  | argument =>
      simp only
      have range := BitVec.toInt_lt (x := (args (val + d.widthArguments)).word)
      exact ⟨le_max_left _ _, by omega, fun _ => trivial⟩

theorem Field.zeros_precision {field : Field} (numeric : field.numeric) (flags : Nat → Bool)
    (width : Int) {precision len : Int} (given : 0 ≤ precision) (fits : precision ≤ 2147483647)
    (nonneg : 0 ≤ len) (within : len ≤ precision) :
    field.zeros flags width precision len = precision - len := by
  unfold Field.zeros
  by_cases less : precision > len
  · rw [if_pos ⟨numeric, less⟩, wrapInt_eq (by omega) (by omega)]
  · rw [if_neg (fun both => less both.2), if_neg (fun all => by omega)]
    omega

/-- At a numeric directive the text printed reads back as the argument exactly when the precision,
if there is one, fits into an `int` and has room for all digits. -/
theorem number_reads_back_iff (n : NumberConversion) (d : Directive) (args : Nat → Argument)
    (f : Frame) (rest : List Byte) (here : f.format.after = d.bytes n.letter ++ rest) :
    ∃ g text, vprintfPass args f = .again g ∧ g.format.after = rest ∧
      g.console = f.console.print f.color text ∧
      (ReadsBack n.base n.digits (n.value (args (d.argument f.val)).word) (d.asked args f.val)
          text ↔
        (d.precision ≠ .absent → d.asked args f.val ≤ 2147483647 ∧
          (Nat.digits n.base (n.value (args (d.argument f.val)).word).natAbs).length ≤
            (d.asked args f.val).toNat)) := by
  have word := n.value_word (args (d.argument f.val)).word
  have converted (before : List Byte) := n.convert_eq args (d.precisionValue args f.val) before rest
    (d.argument f.val)
  generalize n.value (args (d.argument f.val)).word = value at word converted ⊢
  have least := (numberBytes_length n.numerals (d.precisionValue args f.val) word).2
  have found := number_len n.numerals (d.precisionValue args f.val) (decide (value < 0)) word
  generalize count : (if d.precisionValue args f.val ≥ 0 then
    min (d.precisionValue args f.val).toNat
      (numberBytes value.natAbs n.base n.digits (d.precisionValue args f.val)).length
    else (numberBytes value.natAbs n.base n.digits (d.precisionValue args f.val)).length) = k
    at found
  have enough : (k : Int).toNat ≤
      (numberBytes value.natAbs n.base n.digits (d.precisionValue args f.val)).length := by
    rw [Int.toNat_natCast, ← count]
    split <;> omega
  have stored : (numberString n.numerals value.natAbs (d.precisionValue args f.val)).memory.length =
      (numberBytes value.natAbs n.base n.digits (d.precisionValue args f.val)).length + 1 := by
    rw [CString.memory, List.length_append]
    rfl
  obtain ⟨g, pass, after, -, -, printed⟩ :=
    Frame.pass_field n.is_letter here converted found (by rw [stored]; omega)
  refine ⟨g, _, pass, after, printed, ?_⟩
  have signed : (if decide (value < 0) then -(value.natAbs : Int) else value.natAbs) = value := by
    simp only [decide_eq_true_eq]
    split <;> omega
  have reads := reads_back_iff n.numerals d.flagSet (d.widthValue args f.val) (decide (value < 0))
    (d.asked args f.val) enough
  rw [signed] at reads
  refine reads.trans ?_
  rw [Int.toNat_natCast]
  by_cases absent : d.precision = .absent
  · have none : d.precisionValue args f.val = -1 := by rw [Directive.precisionValue, absent]
    have nothing : d.asked args f.val = 0 := by rw [Directive.asked, absent]
    rw [if_neg (by omega)] at count
    exact ⟨fun _ present => absurd absent present, fun _ => ⟨by omega, by omega⟩⟩
  · obtain ⟨given, fits, same⟩ := Directive.precisionValue_asked args f.val absent
    rw [if_pos given] at count
    rw [Field.zeros_precision rfl _ _ given fits (by omega) (by omega)]
    constructor
    · intro ⟨whole, enough⟩ _
      have := same (by omega)
      omega
    · intro holds
      obtain ⟨small, room⟩ := holds absent
      have := same small
      omega

def twoDigits : Directive := ⟨[], no_flags, .absent, .literal (digitList [2])⟩

def twoDigitsFormat : CString := ⟨twoDigits.bytes (chr 'd'), by decide⟩

theorem number_reads_back_seven :
    let f : Frame := .initial (cell 0) (fun _ => 0) 0x700 twoDigitsFormat
    ∃ g text, vprintfPass (fun _ => ⟨7, emptyString⟩) f = .again g ∧ g.console.emitted =
      text.map (fun c => (c, 0x700)) ∧ ReadsBack 10 upperDigits 7 2 text := by
  intro f
  obtain ⟨g, text, pass, -, printed, reads⟩ :=
    number_reads_back_iff .d twoDigits (fun _ => ⟨7, emptyString⟩) f [0] rfl
  refine ⟨g, text, pass, ?_, reads.mpr fun _ => by decide⟩
  rw [printed, Console.print_emitted]
  rfl

theorem number_loses_digits : ∃ final,
    consoleVprintf 2 (cell 0) (fun _ => 0) 0x700 twoDigitsFormat (fun _ => ⟨12345, emptyString⟩) =
      some final ∧ ¬ ReadsBack 10 upperDigits 12345 2 (final.emitted.map Prod.fst) := by
  have shown : (consoleVprintf 2 (cell 0) (fun _ => 0) 0x700 twoDigitsFormat
      (fun _ => ⟨12345, emptyString⟩)).map (fun final => final.emitted.map Prod.fst) =
        some [chr '1', chr '2'] := by
    decide
  obtain ⟨final, ended, emitted⟩ := Option.map_eq_some_iff.mp shown
  refine ⟨final, ended, fun reads => ?_⟩
  have same := reads.same
  rw [emitted] at same
  exact absurd same (by decide)

end SchedOS
