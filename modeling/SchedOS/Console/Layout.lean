import SchedOS.Console.Number

set_option autoImplicit false

namespace SchedOS

section Spec

variable (flags : List Byte) (width : Nat)

def padded (left : Bool) (width : Nat) (text : List Byte) : List Byte :=
  if left then text ++ List.replicate (width - text.length) (chr ' ')
  else List.replicate (width - text.length) (chr ' ') ++ text

def printfSign (x : Int) : List Byte :=
  if x < 0 then [chr '-']
  else if flags.contains (chr '+') then [chr '+']
  else if flags.contains (chr ' ') then [chr ' ']
  else []

def printfInt (x : Int) : List Byte :=
  let digits := (Nat.toDigits 10 x.natAbs).map chr
  if flags.contains (chr '0') ∧ ¬ flags.contains (chr '-') then
    printfSign flags x ++
      List.replicate (width - (printfSign flags x ++ digits).length) (chr '0') ++ digits
  else padded (flags.contains (chr '-')) width (printfSign flags x ++ digits)

def printfString (precision : Option Nat) (text : List Byte) : List Byte :=
  padded (flags.contains (chr '-')) width
    (match precision with
      | some precision => text.take precision
      | none => text)

end Spec

def WidthText.number : WidthText → Option Nat
  | .absent => some 0
  | .literal digits _ => some (literalValue digits)
  | .argument => none

section Precision

variable (d : Directive) (args : Nat → Argument) (val : Nat)

-- In C a negative argument stands for no precision.
def Directive.given : Option Nat :=
  match d.precision with
  | .absent => none
  | .literal digits => some (literalValue digits)
  | .argument =>
      if (args (val + d.widthArguments)).word.toInt < 0 then none
      else some (args (val + d.widthArguments)).word.toInt.toNat

-- What an `int` keeps of the precision, with 0 for a negative one.
def Directive.kept : Nat :=
  match d.precision with
  | .absent => 0
  | .literal digits =>
      if literalValue digits % 2 ^ 32 < 2 ^ 31 then literalValue digits % 2 ^ 32 else 0
  | .argument => (args (val + d.widthArguments)).word.toInt.toNat

def Directive.wanted (length : Nat) : Nat :=
  match d.given args val with
  | some precision => min precision length
  | none => length

-- The precision that is kept lets these through, or what it cuts off are spaces, and the padding
-- puts as many in their place.
def Directive.CutsWell (width : Nat) (text : List Byte) : Prop :=
  d.wanted args val text.length ≤ d.kept args val ∨
    (d.wanted args val text.length ≤ width ∧
      ∀ c ∈ (text.take (d.wanted args val text.length)).drop
        (if d.flags.contains (chr '-') then d.kept args val else 0), c = chr ' ')

theorem Directive.precisionValue_kept (present : d.precision ≠ .absent) :
    d.precisionValue args val = d.kept args val := by
  unfold Directive.precisionValue Directive.kept
  cases which : d.precision with
  | absent => exact absurd which present
  | literal digits =>
      simp only
      unfold wrapInt
      split <;> omega
  | argument =>
      simp only
      omega

theorem Directive.kept_wanted (length : Nat) (present : d.precision ≠ .absent) :
    min (d.kept args val) length ≤ d.wanted args val length := by
  unfold Directive.kept Directive.wanted Directive.given
  cases which : d.precision with
  | absent => exact absurd which present
  | literal digits =>
      have less := Nat.mod_le (literalValue digits) (2 ^ 32)
      simp only
      split <;> omega
  | argument =>
      simp only
      split_ifs with negative
      · exact Nat.min_le_right _ _
      · exact le_rfl

theorem Directive.wanted_le (length : Nat) : d.wanted args val length ≤ length := by
  unfold Directive.wanted
  cases d.given args val with
  | none => exact le_rfl
  | some precision => exact Nat.min_le_right _ _

theorem printfString_wanted (width : Nat) (text : List Byte) :
    printfString d.flags width (d.given args val) text =
      padded (d.flags.contains (chr '-')) width
        (text.take (d.wanted args val text.length)) := by
  unfold printfString Directive.wanted
  cases d.given args val with
  | none => simp only [List.take_length]
  | some precision => exact congrArg (padded _ width) List.take_eq_take_min

end Precision

section Padding

variable {text : List Byte} {q : Nat}

-- A text that goes on from its beginning after some spaces has nothing but spaces.
theorem blank_of_shift (less : q < text.length)
    (same : List.replicate (text.length - q) (chr ' ') ++ text.take q = text) :
    ∀ i (bound : i < text.length), text[i] = chr ' ' := by
  intro i
  induction i using Nat.strongRecOn with
  | _ i ih =>
      intro bound
      have here := List.getElem_of_eq same.symm bound
      rcases Nat.lt_or_ge i (text.length - q) with early | late
      · rw [here, List.getElem_append_left (by rwa [List.length_replicate]),
          List.getElem_replicate]
      · rw [here, List.getElem_append_right (by rwa [List.length_replicate]), List.getElem_take]
        simp only [List.length_replicate]
        exact ih _ (by omega) _

theorem padding_split (less : q < text.length) {width : Nat} (more : text.length ≤ width) :
    List.replicate (width - q) (chr ' ') =
      List.replicate (width - text.length) (chr ' ') ++
        List.replicate (text.length - q) (chr ' ') := by
  rw [List.replicate_append_replicate]
  congr 1
  omega

theorem padded_take_left (width : Nat) (less : q < text.length) (more : text.length ≤ width) :
    padded true width (text.take q) = padded true width text ↔ ∀ c ∈ text.drop q, c = chr ' ' := by
  have short : (text.take q).length = q := List.length_take_of_le less.le
  have parts : padded true width text = text.take q ++
      (text.drop q ++ List.replicate (width - text.length) (chr ' ')) := by
    rw [← List.append_assoc, List.take_append_drop]
    rfl
  have cut : padded true width (text.take q) = text.take q ++
      (List.replicate (text.length - q) (chr ' ') ++
        List.replicate (width - text.length) (chr ' ')) := by
    rw [padded, if_pos rfl, short, padding_split less more, List.replicate_append_replicate,
      List.replicate_append_replicate, Nat.add_comm]
  rw [cut, parts, List.append_cancel_left_eq, List.append_cancel_right_eq, eq_comm,
    List.eq_replicate_iff, and_iff_right List.length_drop]

theorem padded_take_right (width : Nat) (less : q < text.length) (more : text.length ≤ width) :
    padded false width (text.take q) = padded false width text ↔ ∀ c ∈ text, c = chr ' ' := by
  have short : (text.take q).length = q := List.length_take_of_le less.le
  have cut : padded false width (text.take q) =
      List.replicate (width - text.length) (chr ' ') ++
        (List.replicate (text.length - q) (chr ' ') ++ text.take q) := by
    rw [padded, if_neg Bool.false_ne_true, short, padding_split less more, List.append_assoc]
  have whole : padded false width text =
      List.replicate (width - text.length) (chr ' ') ++ text := rfl
  rw [cut, whole, List.append_cancel_left_eq]
  constructor
  · intro same c member
    obtain ⟨i, bound, rfl⟩ := List.mem_iff_getElem.mp member
    exact blank_of_shift less same i bound
  · intro blank
    have spaces : text = List.replicate text.length (chr ' ') :=
      List.eq_replicate_iff.mpr ⟨rfl, blank⟩
    rw [spaces, List.take_replicate, List.length_replicate, Nat.min_eq_left less.le,
      List.replicate_append_replicate, Nat.sub_add_cancel less.le]

theorem padded_take_iff (left : Bool) (width : Nat) (less : q < text.length) :
    padded left width (text.take q) = padded left width text ↔
      text.length ≤ width ∧ ∀ c ∈ text.drop (if left then q else 0), c = chr ' ' := by
  rcases Nat.lt_or_ge width text.length with narrow | more
  · refine iff_of_false (fun same => ?_) fun fits => absurd fits.1 (Nat.not_le.mpr narrow)
    -- Nothing of the longer text is padding, so the shorter one comes out shorter.
    have lengths := congrArg List.length same
    unfold padded at lengths
    split at lengths <;>
      simp only [List.length_append, List.length_replicate, List.length_take] at lengths <;>
      omega
  · rw [and_iff_right more]
    cases left with
    | true => exact padded_take_left width less more
    | false => exact padded_take_right width less more

end Padding

structure Frame.Prints (args : Nat → Argument) (f : Frame) (text rest : List Byte) (g : Frame) :
    Prop where
  pass : vprintfPass args f = .again g
  after : g.format.after = rest
  emitted : g.console.emitted = f.console.emitted ++ text.map fun c => (c, f.color)
  stores : ∃ chunks, g.console.stores = f.console.stores ++ chunks.flatten ∧
    List.Forall₂ (fun c chunk => c ≠ chr '\n' → ∃ a, chunk = [(a, glyph c f.color)]) text chunks

theorem Console.print_stores (color : BitVec 32) (text : List Byte) (s : Console) :
    ∃ chunks, (s.print color text).stores = s.stores ++ chunks.flatten ∧
      List.Forall₂ (fun c chunk => c ≠ chr '\n' → ∃ a, chunk = [(a, glyph c color)]) text
        chunks := by
  have blanks (value : BitVec 16) (k : Nat) (s : Console) :
      ∃ more, ((store value)^[k] s).stores = s.stores ++ more := by
    induction k with
    | zero => exact ⟨[], (List.append_nil _).symm⟩
    | succ k ih =>
        obtain ⟨more, stored⟩ := ih
        rw [Function.iterate_succ_apply']
        exact ⟨more ++ [(((store value)^[k] s).cursor, value)], by
          simp only [store, stored, List.append_assoc]⟩
  have step (c : Byte) (s : Console) : ∃ chunk, (s.putc c color).stores = s.stores ++ chunk ∧
      (c ≠ chr '\n' → ∃ a, chunk = [(a, glyph c color)]) := by
    have wrapped : (if consoleEnd ≤ s.cursor then { s with cursor := consoleBegin }
        else s).stores = s.stores := by
      split <;> rfl
    by_cases newline : c = chr '\n'
    · obtain ⟨more, stored⟩ := blanks (glyph (chr ' ') color)
        (80 - column (if consoleEnd ≤ s.cursor then { s with cursor := consoleBegin }
          else s).cursor).toNat
        (if consoleEnd ≤ s.cursor then { s with cursor := consoleBegin } else s)
      rw [wrapped] at stored
      refine ⟨more, ?_, fun other => absurd newline other⟩
      simp only [putc, if_pos newline]
      exact stored
    · refine ⟨[((if consoleEnd ≤ s.cursor then { s with cursor := consoleBegin }
        else s).cursor, glyph c color)], ?_, fun _ => ⟨_, rfl⟩⟩
      simp only [putc, if_neg newline, store, wrapped]
  induction text generalizing s with
  | nil => exact ⟨[], (List.append_nil _).symm, .nil⟩
  | cons c text ih =>
      obtain ⟨chunk, stored, glyphs⟩ := step c s
      obtain ⟨chunks, later, rest⟩ := ih (s.putc c color)
      refine ⟨chunk :: chunks, ?_, .cons glyphs rest⟩
      rw [List.flatten_cons, ← List.append_assoc, ← stored]
      exact later

theorem Frame.prints {args : Nat → Argument} {f g : Frame} {text rest : List Byte}
    (pass : vprintfPass args f = .again g) (after : g.format.after = rest)
    (printed : g.console = f.console.print f.color text) : f.Prints args text rest g :=
  ⟨pass, after, printed ▸ Console.print_emitted f.color text f.console,
    printed ▸ Console.print_stores f.color text f.console⟩

theorem Frame.Prints.unique {args : Nat → Argument} {f g g' : Frame}
    {text text' rest rest' : List Byte} (shown : f.Prints args text rest g)
    (other : f.Prints args text' rest' g') : text = text' := by
  obtain rfl := Loop.Pass.again.inj (shown.pass.symm.trans other.pass)
  have same := List.append_cancel_left (shown.emitted.symm.trans other.emitted)
  exact List.map_injective_iff.mpr (fun _ _ equal => congrArg Prod.fst equal) same

section Fields

variable {flags : Nat → Bool} {width precision : Int} {field : Field} {k : Nat}

theorem Field.signLength_eq (field : Field) (flags : Nat → Bool) :
    signLength (field.sign flags) = (field.signText flags).length := by
  unfold signLength Field.signText
  split <;> rfl

theorem Field.signText_length (field : Field) (flags : Nat → Bool) :
    (field.signText flags).length ≤ 1 := by
  unfold Field.signText
  split <;> simp

theorem Field.text_padded (none : field.zeros flags width precision k = 0)
    (low : -1 ≤ width) (high : width ≤ 2147483647)
    (few : k + (field.signText flags).length ≤ 2147483647) (enough : k ≤ field.data.length) :
    field.text flags width precision k =
      padded (flags flagLeftjustify) width.toNat (field.signText flags ++ field.data.take k) := by
  have length : (field.signText flags ++ field.data.take k).length =
      (field.signText flags).length + k := by
    rw [List.length_append, List.length_take, min_eq_left enough]
  have spaces : (field.spaces flags width precision k).toNat =
      width.toNat - ((field.signText flags).length + k) := by
    have used := @wrapInt_eq (k + 0 + (field.signText flags).length) (by omega) (by omega)
    rw [Field.spaces, none, Field.signLength_eq, used, wrapInt_eq (by omega) (by omega)]
    omega
  unfold Field.text padded Field.body Field.padding
  rw [none, spaces, length, Int.toNat_natCast]
  simp

theorem Field.text_zeros (numeric : field.numeric) (zero : flags flagZero = true)
    (left : flags flagLeftjustify = false) (low : -1 ≤ width) (high : width ≤ 2147483647)
    (absent : precision < 0) (few : k ≤ 19) (enough : k ≤ field.data.length) :
    field.text flags width precision k =
      field.signText flags ++
        List.replicate (width.toNat - (field.signText flags ++ field.data.take k).length)
          (chr '0') ++ field.data.take k := by
  have length : (field.signText flags ++ field.data.take k).length =
      (field.signText flags).length + k := by
    rw [List.length_append, List.length_take, min_eq_left enough]
  have sign := field.signText_length flags
  have zeros : field.zeros flags width precision k =
      (width.toNat - ((field.signText flags).length + k) : Nat) := by
    unfold Field.zeros
    rw [if_neg (by omega), Field.signLength_eq, wrapInt_eq (by omega) (by omega)]
    by_cases more : (k : Int) + (field.signText flags).length < width
    · rw [if_pos ⟨⟨zero, by simp [left]⟩, numeric, absent, more⟩, wrapInt_eq (by omega) (by omega)]
      omega
    · rw [if_neg (fun all => more all.2.2.2)]
      omega
  have spaces : (field.spaces flags width precision k).toNat = 0 := by
    have used := @wrapInt_eq
      (k + (width.toNat - ((field.signText flags).length + k) : Nat) +
        (field.signText flags).length) (by omega) (by omega)
    rw [Field.spaces, zeros, Field.signLength_eq, used, wrapInt_eq (by omega) (by omega)]
    omega
  unfold Field.text Field.body Field.padding
  rw [if_neg (by simp [left]), spaces, zeros, length]
  simp

end Fields

theorem Directive.flagSet_eq (d : Directive) (c : Byte) :
    d.flagSet (flagChars.idxOf c) = d.flags.contains c := by
  unfold Directive.flagSet
  rw [Bool.eq_iff_iff, decide_eq_true_eq, List.contains_iff_mem]
  refine ⟨fun ⟨b, member, same⟩ => ?_, fun member => ⟨c, member, rfl⟩⟩
  rwa [← (List.idxOf_inj (d.known b member)).mp same]

section Layouts

variable (d : Directive) {width : Nat} (asked : d.width.number = some width)
  (fits : width ≤ 2147483647) (args : Nat → Argument) (f : Frame)

include asked fits in
theorem Directive.widthValue_number :
    -1 ≤ d.widthValue args f.val ∧ d.widthValue args f.val ≤ 2147483647 ∧
      (d.widthValue args f.val).toNat = width := by
  unfold Directive.widthValue
  cases which : d.width with
  | absent =>
      rw [which, WidthText.number, Option.some.injEq] at asked
      simp only
      omega
  | literal digits leading =>
      rw [which, WidthText.number, Option.some.injEq] at asked
      simp only
      rw [wrapInt_eq (by omega) (by omega)]
      omega
  | argument =>
      rw [which] at asked
      cases asked

theorem numeral_toDigits (val : Nat) :
    numeral 10 upperDigits val = (Nat.toDigits 10 val).map chr := by
  have digit : ∀ k, k < 10 → [upperDigits.getD k 0] = [chr (Nat.digitChar k)] := by decide
  induction val using Nat.strongRecOn with
  | _ val ih =>
      by_cases more : val / 10 = 0
      · have less : val < 10 := by omega
        rw [numeral_last upperDigits less, Nat.toDigits_of_lt_base less, digit val less]
        rfl
      · rw [numeral_step upperDigits (by decide) more, ih (val / 10) (by omega),
          Nat.toDigits_of_base_le (by decide) (show 10 ≤ val by omega), List.map_append,
          digit _ (Nat.mod_lt val (by decide))]
        rfl

theorem int_text (x : Int) (word : x.natAbs < 2 ^ 32) (w : Int) (low : -1 ≤ w)
    (high : w ≤ 2147483647) :
    let field : Field :=
      ⟨(numberString upperDecimal x.natAbs (-1)).memory, true, decide (x < 0)⟩
    field.text d.flagSet w (-1) (numberBytes x.natAbs 10 upperDigits (-1)).length =
      printfInt d.flags w.toNat x := by
  intro field
  have digits : numberBytes x.natAbs 10 upperDigits (-1) = (Nat.toDigits 10 x.natAbs).map chr := by
    rw [numberBytes, if_pos (.inl (by decide)), numeral_toDigits]
  have few := (numberBytes_length upperDecimal (-1) word).1
  have shown : field.data.take (numberBytes x.natAbs 10 upperDigits (-1)).length =
      (Nat.toDigits 10 x.natAbs).map chr := by
    rw [← digits]
    exact List.take_left
  have enough : (numberBytes x.natAbs 10 upperDigits (-1)).length ≤ field.data.length := by
    change _ ≤ (numberBytes x.natAbs 10 upperDigits (-1) ++ [0]).length
    rw [List.length_append]
    omega
  have zero : d.flagSet flagZero = d.flags.contains (chr '0') := d.flagSet_eq (chr '0')
  have left : d.flagSet flagLeftjustify = d.flags.contains (chr '-') := d.flagSet_eq (chr '-')
  have space : d.flagSet flagSpacepositive = d.flags.contains (chr ' ') := d.flagSet_eq (chr ' ')
  have plus : d.flagSet flagPluspositive = d.flags.contains (chr '+') := d.flagSet_eq (chr '+')
  have sign : field.signText d.flagSet = printfSign d.flags x := by
    unfold Field.signText Field.sign printfSign
    simp only [field, decide_eq_true_eq, true_and, plus, space]
    split
    · rfl
    · split
      · rfl
      · split <;> rfl
  unfold printfInt
  by_cases zeros : d.flags.contains (chr '0') ∧ ¬ d.flags.contains (chr '-')
  · rw [if_pos zeros, Field.text_zeros rfl (zero.trans zeros.1)
      (left.trans (Bool.eq_false_iff.mpr zeros.2)) low high (by decide) few enough, shown, sign]
  · have none : field.zeros d.flagSet w (-1) (numberBytes x.natAbs 10 upperDigits (-1)).length =
        0 := by
      unfold Field.zeros
      rw [if_neg (by omega), zero, left, if_neg fun all => zeros ⟨all.1.1, by simpa using all.1.2⟩]
    have one := field.signText_length d.flagSet
    rw [if_neg zeros, Field.text_padded none low high (by omega) enough, shown, sign, left]

theorem string_text (s : CString) (precision : Int)
    (plus : chr '+' ∉ d.flags) (space : chr ' ' ∉ d.flags) {w : Int} (low : -1 ≤ w)
    (high : w ≤ 2147483647) {k : Nat} (enough : k ≤ s.bytes.length) (short : k ≤ 2147483647) :
    (Field.mk s.memory false false).text d.flagSet w precision k =
      padded (d.flags.contains (chr '-')) w.toNat (s.bytes.take k) := by
  have shown : s.memory.take k = s.bytes.take k :=
    List.take_append_of_le_length enough
  have left : d.flagSet flagLeftjustify = d.flags.contains (chr '-') := d.flagSet_eq (chr '-')
  have spaceFlag : d.flagSet flagSpacepositive = false :=
    (d.flagSet_eq (chr ' ')).trans (by simpa using space)
  have plusFlag : d.flagSet flagPluspositive = false :=
    (d.flagSet_eq (chr '+')).trans (by simpa using plus)
  have sign : (Field.mk s.memory false false).signText d.flagSet = [] := by
    simp [Field.signText, Field.sign, spaceFlag, plusFlag]
  have none : (Field.mk s.memory false false).zeros d.flagSet w precision k = 0 := by
    simp [Field.zeros]
  have inside : k ≤ s.memory.length := by
    rw [CString.memory, List.length_append]
    omega
  rw [Field.text_padded none low high (by rw [sign]; simpa using short) inside, shown, sign, left,
    List.nil_append]

include asked fits in
theorem int_prints (rest : List Byte) (absent : d.precision = .absent)
    (here : f.format.after = d.bytes (chr 'd') ++ rest) :
    ∃ g, f.Prints args (printfInt d.flags width (args (d.argument f.val)).word.toInt) rest g := by
  obtain ⟨low, high, same⟩ := d.widthValue_number asked fits args f
  have none : d.precisionValue args f.val = -1 := by rw [Directive.precisionValue, absent]
  have word := NumberConversion.d.value_word (args (d.argument f.val)).word
  have converted (before : List Byte) := NumberConversion.d.convert_eq args
    (d.precisionValue args f.val) before rest (d.argument f.val)
  have found := number_len upperDecimal (d.precisionValue args f.val)
    (decide ((args (d.argument f.val)).word.toInt < 0)) word
  rw [if_neg (by omega)] at found
  obtain ⟨g, pass, after, -, -, printed⟩ :=
    Frame.pass_field NumberConversion.d.is_letter here converted found (by
      change _ ≤ (numberBytes _ _ _ _ ++ [0]).length
      rw [List.length_append, Int.toNat_natCast]
      exact Nat.le_add_right _ _)
  rw [none] at printed
  have text := int_text d _ word _ low high
  rw [same] at text
  exact ⟨g, Frame.prints pass after (text ▸ printed)⟩

include asked fits in
theorem string_prints (rest : List Byte) (present : d.precision ≠ .absent)
    (plus : chr '+' ∉ d.flags) (space : chr ' ' ∉ d.flags)
    (here : f.format.after = d.bytes (chr 's') ++ rest) :
    ∃ g, f.Prints args (padded (d.flags.contains (chr '-')) width
      ((args (d.argument f.val)).string.bytes.take
        (min (d.kept args f.val) (args (d.argument f.val)).string.bytes.length))) rest g := by
  obtain ⟨low, high, same⟩ := d.widthValue_number asked fits args f
  obtain ⟨given, most, -⟩ := Directive.precisionValue_asked args f.val present
  have kept := d.precisionValue_kept args f.val present
  have letter : Letter (chr 's') := by constructor <;> decide
  have converted (before : List Byte) : convert args (d.precisionValue args f.val)
      ⟨before, chr 's' :: rest⟩ (d.argument f.val) =
        some (.field ⟨(args (d.argument f.val)).string.memory, false, false⟩,
          ⟨before, chr 's' :: rest⟩, d.argument f.val + 1) := rfl
  generalize (args (d.argument f.val)).string = s at converted ⊢
  have found := @Field.len_memory ⟨s.memory, false, false⟩ s rfl (d.precisionValue args f.val)
  rw [if_pos given, kept, Int.toNat_natCast, wrapInt_eq (by omega) (by omega)] at found
  rw [← kept] at found
  obtain ⟨g, pass, after, -, -, printed⟩ := Frame.pass_field letter here converted found (by
    rw [CString.memory, List.length_append, Int.toNat_natCast]
    omega)
  have text := string_text d s (d.precisionValue args f.val) plus space low high
    (Nat.min_le_right (d.kept args f.val) s.bytes.length) (by omega)
  rw [same] at text
  exact ⟨g, Frame.prints pass after (text ▸ printed)⟩

include asked fits in
/-- `%d` without a precision is always laid out as by C's printf; `%s` with one is exactly when
the precision that is kept cuts well. -/
theorem layout_iff (rest : List Byte) :
    (d.precision = .absent → f.format.after = d.bytes (chr 'd') ++ rest →
      ∃ g, f.Prints args (printfInt d.flags width (args (d.argument f.val)).word.toInt) rest g) ∧
    (d.precision ≠ .absent → chr '+' ∉ d.flags → chr ' ' ∉ d.flags →
      f.format.after = d.bytes (chr 's') ++ rest →
        ((∃ g, f.Prints args (printfString d.flags width (d.given args f.val)
            (args (d.argument f.val)).string.bytes) rest g) ↔
          d.CutsWell args f.val width (args (d.argument f.val)).string.bytes)) := by
  refine ⟨int_prints d asked fits args f rest, fun present plus space here => ?_⟩
  obtain ⟨g, shown⟩ := string_prints d asked fits args f rest present plus space here
  generalize (args (d.argument f.val)).string.bytes = text at shown ⊢
  have less := d.kept_wanted args f.val text.length present
  have inside := d.wanted_le args f.val text.length
  have prints (wanted : List Byte) : (∃ g, f.Prints args wanted rest g) ↔
      padded (d.flags.contains (chr '-')) width
        (text.take (min (d.kept args f.val) text.length)) = wanted :=
    ⟨fun ⟨_, other⟩ => shown.unique other, fun same => ⟨g, same ▸ shown⟩⟩
  rw [prints, printfString_wanted, Directive.CutsWell]
  generalize d.wanted args f.val text.length = wanted at less inside ⊢
  generalize d.kept args f.val = kept at less ⊢
  have length : (text.take wanted).length = wanted := List.length_take_of_le inside
  rcases Nat.lt_or_ge kept wanted with cut | whole
  · have part : text.take (min kept text.length) = (text.take wanted).take kept := by
      rw [List.take_take, Nat.min_eq_left (by omega), Nat.min_eq_left cut.le]
    rw [part, padded_take_iff _ width (length.symm ▸ cut), length]
    simp only [Nat.not_le.mpr cut, false_or]
  · have equal : min kept text.length = wanted := by omega
    rw [equal]
    exact iff_of_true rfl (.inl whole)

end Layouts

def paddedNumber : Directive :=
  ⟨[chr '+', chr '0'], by decide, .literal (digitList [5]) ⟨5, [], rfl, by decide⟩, .absent⟩

def cutString : Directive :=
  ⟨[chr '-'], by decide, .literal (digitList [6]) ⟨6, [], rfl, by decide⟩, .literal (digitList [3])⟩

def letters : CString := ⟨"abcdef".toList.map chr, by decide⟩

theorem layout_shown :
    let args : Nat → Argument := fun _ => ⟨-42, letters⟩
    let frame : Directive → Byte → Frame := fun d c =>
      ⟨.fresh (cell 0) fun _ => 0, 0x700, ⟨[], d.bytes c ++ [0]⟩, 0⟩
    (∃ g, (frame paddedNumber (chr 'd')).Prints args ("-0042".toList.map chr) [0] g) ∧
      ∃ g, (frame cutString (chr 's')).Prints args ("abc   ".toList.map chr) [0] g := by
  intro args frame
  have number := (layout_iff paddedNumber rfl (by decide) args (frame paddedNumber (chr 'd')) [0]).1
    rfl rfl
  have string := (layout_iff cutString rfl (by decide) args (frame cutString (chr 's')) [0]).2
    nofun (by decide) (by decide) rfl
  have cuts : cutString.CutsWell args 0 6 letters.bytes := .inl (by decide)
  have numberText : printfInt paddedNumber.flags 5 (-42) = "-0042".toList.map chr := by decide
  have stringText : printfString cutString.flags 6 (cutString.given args 0) letters.bytes =
      "abc   ".toList.map chr := by
    decide
  rw [← numberText, ← stringText]
  exact ⟨number, string.mpr cuts⟩

def hugePrecision : Directive :=
  ⟨[], no_flags, .absent, .literal (digitList [2, 1, 4, 7, 4, 8, 3, 6, 4, 8])⟩

def hugeFormat : CString := ⟨hugePrecision.bytes (chr 's'), by decide⟩

theorem layout_drops_string :
    let args : Nat → Argument := fun _ => ⟨0, letters⟩
    hugePrecision.given args 0 = some 2147483648 ∧ ∃ final,
      consoleVprintf 2 (cell 0) (fun _ => 0) 0x700 hugeFormat args = some final ∧
        final.emitted.map Prod.fst ≠
          printfString hugePrecision.flags 0 (hugePrecision.given args 0) letters.bytes := by
  intro args
  have shown : (consoleVprintf 2 (cell 0) (fun _ => 0) 0x700 hugeFormat args).map
      (fun final => final.emitted.map Prod.fst) = some [] := by
    decide
  obtain ⟨final, ended, emitted⟩ := Option.map_eq_some_iff.mp shown
  refine ⟨by decide, final, ended, ?_⟩
  rw [emitted]
  decide

end SchedOS
