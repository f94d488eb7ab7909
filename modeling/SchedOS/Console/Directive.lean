import SchedOS.Console.Safety

set_option autoImplicit false

namespace SchedOS

def decimalByte (d : Fin 10) : Byte := chr '0' + BitVec.ofNat 8 d.val

def digitList (digits : List Nat) : List (Fin 10) := digits.map (Fin.ofNat 10)

def literalBytes (digits : List (Fin 10)) : List Byte := digits.map decimalByte

def literalValue (digits : List (Fin 10)) : Nat := digits.foldl (fun n d => 10 * n + d.val) 0

-- A literal width starts with another digit than 0, which would be a flag.
inductive WidthText where
  | absent
  | literal (digits : List (Fin 10)) (leading : ∃ d rest, digits = d :: rest ∧ 0 < d.val)
  | argument

def WidthText.bytes : WidthText → List Byte
  | .absent => []
  | .literal digits _ => literalBytes digits
  | .argument => [chr '*']

inductive PrecisionText where
  | absent
  | literal (digits : List (Fin 10))
  | argument

def PrecisionText.bytes : PrecisionText → List Byte
  | .absent => []
  | .literal digits => chr '.' :: literalBytes digits
  | .argument => [chr '.', chr '*']

theorem no_flags : ∀ c ∈ ([] : List Byte), c ∈ flagChars := by simp

/-- A directive up to its conversion character. -/
structure Directive where
  flags : List Byte
  known : ∀ c ∈ flags, c ∈ flagChars
  width : WidthText
  precision : PrecisionText

namespace Directive

def bytes (d : Directive) (conversion : Byte) : List Byte :=
  chr '%' :: (d.flags ++ (d.width.bytes ++ (d.precision.bytes ++ [conversion])))

def flagSet (d : Directive) (i : Nat) : Bool := decide (∃ c ∈ d.flags, flagChars.idxOf c = i)

def widthArguments (d : Directive) : Nat :=
  match d.width with
  | .argument => 1
  | _ => 0

def precisionArguments (d : Directive) : Nat :=
  match d.precision with
  | .argument => 1
  | _ => 0

section Values

variable (d : Directive) (args : Nat → Argument) (val : Nat)

def widthValue : Int :=
  match d.width with
  | .absent => -1
  | .literal digits _ => wrapInt (literalValue digits)
  | .argument => (args val).word.toInt

def precisionValue : Int :=
  match d.precision with
  | .absent => -1
  | .literal digits => max 0 (wrapInt (literalValue digits))
  | .argument => max 0 (args (val + d.widthArguments)).word.toInt

def argument : Nat := val + d.widthArguments + d.precisionArguments

end Values

end Directive

-- A conversion character that no other part of a directive can hold.
structure Letter (c : Byte) : Prop where
  flag : c ∉ flagChars
  digit : ¬ Digit c
  star : c ≠ chr '*'
  point : c ≠ chr '.'

section Parsers

theorem flagLoop_eq {flags : List Byte} (known : ∀ c ∈ flags, c ∈ flagChars) {b : Byte}
    (other : b ∉ flagChars) (before rest : List Byte) (set : Nat → Bool) :
    flagLoop set before (flags ++ b :: rest) =
      some (fun i => set i || decide (∃ c ∈ flags, flagChars.idxOf c = i),
        ⟨flags.reverse ++ before, b :: rest⟩) := by
  induction flags generalizing before set with
  | nil =>
      have away : flagChars.idxOf b = flagChars.length := List.idxOf_eq_length_iff.mpr other
      simp [flagLoop, away]
  | cons c flags ih =>
      obtain ⟨here, later⟩ := List.forall_mem_cons.mp known
      have more : c ≠ 0 := by
        rintro rfl
        exact absurd here (by decide)
      have found : flagChars.idxOf c ≠ flagChars.length := fun away =>
        List.idxOf_eq_length_iff.mp away here
      rw [List.cons_append, flagLoop, if_neg more, if_neg found, ih later, List.reverse_cons,
        List.append_assoc]
      congr 2
      funext i
      by_cases same : flagChars.idxOf c = i
      · rw [same, Function.update_self]
        simp [same]
      · rw [Function.update_of_ne (Ne.symm same)]
        simp [same]

theorem decimalByte_digit (d : Fin 10) :
    Digit (decimalByte d) ∧ (decimalByte d).toInt - (chr '0').toInt = d.val := by
  revert d
  decide

theorem decimalByte_zero {d : Fin 10} (more : 0 < d.val) : decimalByte d ≠ chr '0' := by
  revert d
  decide

theorem digitLoop_eq (digits : List (Fin 10)) {b : Byte} (other : ¬ Digit b) (n : Nat)
    (before rest : List Byte) :
    digitLoop (wrapInt n) before (literalBytes digits ++ b :: rest) =
      some (wrapInt (digits.foldl (fun n d => 10 * n + d.val) n : Nat),
        ⟨(literalBytes digits).reverse ++ before, b :: rest⟩) := by
  induction digits generalizing n before with
  | nil => simp [literalBytes, digitLoop, other]
  | cons d digits ih =>
      obtain ⟨digit, value⟩ := decimalByte_digit d
      have step : wrapInt (10 * wrapInt n + (decimalByte d).toInt - (chr '0').toInt) =
          wrapInt ((10 * n + d.val : Nat)) := by
        rw [Int.add_sub_assoc, value]
        unfold wrapInt
        push_cast
        omega
      rw [literalBytes, List.map_cons, List.cons_append, digitLoop, if_pos digit, step]
      have rest := ih (10 * n + d.val) (decimalByte d :: before)
      rw [literalBytes] at rest
      rw [rest, List.foldl_cons, List.reverse_cons, List.append_assoc]
      rfl

theorem digitLoop_literal (digits : List (Fin 10)) {b : Byte} (other : ¬ Digit b)
    (before rest : List Byte) :
    digitLoop 0 before (literalBytes digits ++ b :: rest) =
      some (wrapInt (literalValue digits),
        ⟨(literalBytes digits).reverse ++ before, b :: rest⟩) :=
  digitLoop_eq digits other 0 before rest

variable (d : Directive) (args : Nat → Argument) (val : Nat) {b : Byte} (before rest : List Byte)

theorem readWidth_eq (digit : ¬ Digit b) (star : b ≠ chr '*') :
    readWidth args ⟨before, d.width.bytes ++ b :: rest⟩ val =
      some (d.widthValue args val, ⟨d.width.bytes.reverse ++ before, b :: rest⟩,
        val + d.widthArguments) := by
  unfold readWidth Directive.widthValue Directive.widthArguments
  cases d.width with
  | absent => simp [WidthText.bytes, Pointer.read, digit, star]
  | argument =>
      have other : ¬ Digit (chr '*') := by decide
      simp [WidthText.bytes, Pointer.read, other, Pointer.next]
  | literal digits leading =>
      have parsed := digitLoop_literal digits digit before rest
      obtain ⟨first, more, rfl, nonzero⟩ := leading
      have started : Digit (decimalByte first) ∧ decimalByte first ≠ chr '0' :=
        ⟨(decimalByte_digit first).1, decimalByte_zero nonzero⟩
      simp only [WidthText.bytes, Pointer.read]
      rw [parsed]
      simp [literalBytes, started]

theorem readPrecisionValue_literal (digit : ¬ Digit b) (star : b ≠ chr '*')
    (digits : List (Fin 10)) : ∃ value,
      readPrecisionValue args ⟨before, literalBytes digits ++ b :: rest⟩ val =
        some (value, ⟨(literalBytes digits).reverse ++ before, b :: rest⟩, val) ∧
      (if value < 0 then 0 else value) = max 0 (wrapInt (literalValue digits)) := by
  have parsed := digitLoop_literal digits digit before rest
  unfold readPrecisionValue
  cases digits with
  | nil => exact ⟨-1, by simp [literalBytes, Pointer.read, digit, star], by decide⟩
  | cons first more =>
      have started := (decimalByte_digit first).1
      refine ⟨wrapInt (literalValue (first :: more)), ?_, by omega⟩
      simp only [Pointer.read]
      rw [parsed]
      simp [literalBytes, started]

theorem readPrecision_eq (digit : ¬ Digit b) (star : b ≠ chr '*') (point : b ≠ chr '.') :
    readPrecision args ⟨before, d.precision.bytes ++ b :: rest⟩ (val + d.widthArguments) =
      some (d.precisionValue args val, ⟨d.precision.bytes.reverse ++ before, b :: rest⟩,
        d.argument val) := by
  unfold readPrecision Directive.precisionValue Directive.argument Directive.precisionArguments
  have clamp (x : Int) : (if x < 0 then 0 else x) = max 0 x := by omega
  cases d.precision with
  | absent => simp [PrecisionText.bytes, Pointer.read, point]
  | argument =>
      have other : ¬ Digit (chr '*') := by decide
      simp [PrecisionText.bytes, Pointer.read, other, Pointer.next, readPrecisionValue, clamp]
  | literal digits =>
      obtain ⟨value, read, same⟩ :=
        readPrecisionValue_literal args (val + d.widthArguments) (chr '.' :: before) rest digit star
          digits
      simp [PrecisionText.bytes, Pointer.read, Pointer.next, read, same]

theorem precision_head {c : Byte} (letter : Letter c) :
    ∃ b more, d.precision.bytes ++ c :: rest = b :: more ∧ b ∉ flagChars ∧ ¬ Digit b ∧
      b ≠ chr '*' := by
  cases d.precision with
  | absent => exact ⟨c, rest, rfl, letter.flag, letter.digit, letter.star⟩
  | literal digits => exact ⟨_, _, rfl, by decide, by decide, by decide⟩
  | argument => exact ⟨_, _, rfl, by decide, by decide, by decide⟩

theorem decimalByte_other {d : Fin 10} (more : 0 < d.val) : decimalByte d ∉ flagChars := by
  revert d
  decide

theorem width_head (other : b ∉ flagChars) :
    ∃ c more, d.width.bytes ++ b :: rest = c :: more ∧ c ∉ flagChars := by
  cases d.width with
  | absent => exact ⟨b, rest, rfl, other⟩
  | literal digits leading =>
      obtain ⟨first, more, rfl, nonzero⟩ := leading
      exact ⟨_, _, rfl, decimalByte_other nonzero⟩
  | argument => exact ⟨_, _, rfl, by decide⟩

end Parsers

section Passes

variable {d : Directive} {args : Nat → Argument} {f : Frame} {c : Byte} {rest : List Byte}

theorem Frame.directive_eq (letter : Letter c) (here : f.format.after = d.bytes c ++ rest) :
    ∃ before, f.directive args =
      (convert args (d.precisionValue args f.val) ⟨before, c :: rest⟩ (d.argument f.val)).bind
        fun
          | (.color color, p, val) => some { f with color := color, format := p, val := val }
          | (.field field, p, val) =>
              (f.console.putField d.flagSet (d.widthValue args f.val)
                (d.precisionValue args f.val) field f.color).bind
                fun console => some { f with console := console, format := p, val := val } := by
  -- What each parser finds at its pointer, from the last one to the first.
  obtain ⟨b, more, precisionText, other, digit, star⟩ := precision_head d rest letter
  obtain ⟨e, tail, widthText, flag⟩ := width_head d more other
  have next : f.format.next = some ⟨chr '%' :: f.format.before, d.flags ++ e :: tail⟩ := by
    rw [Pointer.next, here, ← widthText, ← precisionText]
    simp [Directive.bytes]
  have flagged := flagLoop_eq d.known flag (chr '%' :: f.format.before) tail fun _ => false
  have widthRead := readWidth_eq d args f.val (d.flags.reverse ++ chr '%' :: f.format.before) more
    digit star
  have precisionRead := readPrecision_eq d args f.val
    (d.width.bytes.reverse ++ (d.flags.reverse ++ chr '%' :: f.format.before)) rest letter.digit
    letter.star letter.point
  rw [widthText] at widthRead
  rw [precisionText] at precisionRead
  refine ⟨d.precision.bytes.reverse ++
    (d.width.bytes.reverse ++ (d.flags.reverse ++ chr '%' :: f.format.before)), ?_⟩
  unfold Frame.directive
  simp only [next, flagged, widthRead, precisionRead, Option.bind_eq_bind, Option.bind_some,
    Option.pure_def, Bool.false_or]
  rfl

theorem Frame.pass_field (letter : Letter c) (here : f.format.after = d.bytes c ++ rest)
    {field : Field} {len : Int}
    (converted : ∀ before, convert args (d.precisionValue args f.val) ⟨before, c :: rest⟩
      (d.argument f.val) = some (.field field, ⟨before, c :: rest⟩, d.argument f.val + 1))
    (found : field.len (d.precisionValue args f.val) = some len)
    (enough : len.toNat ≤ field.data.length) :
    ∃ g, vprintfPass args f = .again g ∧ g.format.after = rest ∧ g.color = f.color ∧
      g.val = d.argument f.val + 1 ∧
      g.console = f.console.print f.color
        (field.text d.flagSet (d.widthValue args f.val) (d.precisionValue args f.val) len) := by
  obtain ⟨before, step⟩ := @Frame.directive_eq d args f c rest letter here
  have first : f.format.read = some (chr '%') := by
    rw [Pointer.read, here]
    rfl
  rw [converted before, Option.bind_some] at step
  simp only [Console.putField_eq d.flagSet (d.widthValue args f.val) found enough,
    Option.bind_some] at step
  refine ⟨{ f with
    console := f.console.print f.color (field.text d.flagSet (d.widthValue args f.val)
      (d.precisionValue args f.val) len)
    format := ⟨c :: before, rest⟩
    val := d.argument f.val + 1 }, ?_, rfl, rfl, rfl, rfl⟩
  unfold vprintfPass Frame.body
  have nonzero : chr '%' ≠ 0 := by decide
  simp only [first, if_neg nonzero, ne_eq, not_true_eq_false, if_false, step, Option.bind_some]
  rfl

end Passes

theorem Field.len_memory {field : Field} {s : CString} (string : field.data = s.memory)
    (precision : Int) :
    field.len precision = some (wrapInt
      (if precision ≥ 0 then min precision.toNat s.bytes.length else s.bytes.length : Nat)) := by
  unfold Field.len
  rw [string, strnlen_memory, strlen_memory]
  split <;> rfl

end SchedOS
