import SchedOS.Console.Layout

set_option autoImplicit false

namespace SchedOS

def conversionLetters : List Byte := "duxXsCc".toList.map chr

/-- What a directive ends in. A character that is no conversion stands for itself. -/
inductive Conversion where
  | number (n : NumberConversion)
  | string
  | character
  | color
  | other (c : Byte) (letter : Letter c) (known : c ∉ conversionLetters) (more : c ≠ 0)

namespace Conversion

def letter : Conversion → Byte
  | .number n => n.letter
  | .string => chr 's'
  | .character => chr 'c'
  | .color => chr 'C'
  | .other c _ _ _ => c

theorem is_letter (conversion : Conversion) : Letter conversion.letter := by
  cases conversion with
  | number n => exact n.is_letter
  | string | character | color => constructor <;> decide
  | other c letter => exact letter

theorem letter_nonzero (conversion : Conversion) : conversion.letter ≠ 0 := by
  cases conversion with
  | number n => cases n <;> decide
  | string | character | color => decide
  | other c _ _ more => exact more

def arguments : Conversion → Nat
  | .other _ _ _ _ => 0
  | _ => 1

def field (arg : Argument) (precision : Int) : Conversion → Option Field
  | .number n => some ⟨(numberString n.numerals (n.value arg.word).natAbs precision).memory, true,
      decide (n.value arg.word < 0)⟩
  | .string => some ⟨arg.string.memory, false, false⟩
  | .character => some ⟨[arg.word.setWidth 8, 0], false, false⟩
  | .color => none
  | .other c _ _ _ => some ⟨[c, 0], false, false⟩

end Conversion

structure Printing where
  color : BitVec 32
  val : Nat

inductive Piece where
  | character (c : Byte) (plain : c ≠ 0 ∧ c ≠ chr '%')
  | directive (d : Directive) (conversion : Conversion)

section Meaning

variable (args : Nat → Argument) (s : Printing)

def Directive.shows (d : Directive) (field : Field) : List (Byte × BitVec 32) :=
  let precision := d.precisionValue args s.val
  let len := (field.len precision).getD 0
  (field.text d.flagSet (d.widthValue args s.val) precision len).map fun c => (c, s.color)

def Piece.shows : Piece → List (Byte × BitVec 32)
  | .character c _ => [(c, s.color)]
  | .directive d conversion =>
      match conversion.field (args (d.argument s.val)) (d.precisionValue args s.val) with
      | some field => d.shows args s field
      | none => []

def Piece.next : Piece → Printing
  | .character _ _ => s
  | .directive d conversion =>
      { color :=
          match conversion with
          | .color => (args (d.argument s.val)).word
          | _ => s.color
        val := d.argument s.val + conversion.arguments }

end Meaning

-- The last directive has no conversion; a '%' is laid out in its place.
structure Format where
  pieces : List Piece
  unfinished : Option Directive

def Directive.start (d : Directive) : List Byte :=
  chr '%' :: (d.flags ++ (d.width.bytes ++ d.precision.bytes))

def Piece.bytes : Piece → List Byte
  | .character c _ => [c]
  | .directive d conversion => d.bytes conversion.letter

namespace Format

def ending (format : Format) : List Byte :=
  match format.unfinished with
  | some d => d.start
  | none => []

def bytes (format : Format) : List Byte := format.pieces.flatMap Piece.bytes ++ format.ending

def print (args : Nat → Argument) : List Piece → Printing → List (Byte × BitVec 32) × Printing
  | [], s => ([], s)
  | piece :: pieces, s =>
      let (rest, last) := print args pieces (piece.next args s)
      (piece.shows args s ++ rest, last)

def shows (format : Format) (args : Nat → Argument) (color : BitVec 32) :
    List (Byte × BitVec 32) :=
  let (shown, last) := print args format.pieces { color := color, val := 0 }
  match format.unfinished with
  | some d => shown ++ d.shows args last ⟨[chr '%', 0], false, false⟩
  | none => shown

end Format

section Bytes

theorem literalBytes_nonzero {digits : List (Fin 10)} {b : Byte}
    (member : b ∈ literalBytes digits) : b ≠ 0 := by
  have nonzero : ∀ digit : Fin 10, decimalByte digit ≠ 0 := by decide
  obtain ⟨digit, -, rfl⟩ := List.mem_map.mp member
  exact nonzero digit

theorem Directive.start_nonzero (d : Directive) : ∀ b ∈ d.start, b ≠ 0 := by
  have flag : ∀ c ∈ flagChars, c ≠ 0 := by decide
  have width : ∀ b ∈ d.width.bytes, b ≠ 0 := by
    cases d.width with
    | absent => simp [WidthText.bytes]
    | literal digits => exact fun b member => literalBytes_nonzero member
    | argument => decide
  have precision : ∀ b ∈ d.precision.bytes, b ≠ 0 := by
    cases d.precision with
    | absent => simp [PrecisionText.bytes]
    | literal digits =>
        intro b member
        rcases List.mem_cons.mp member with rfl | member
        · decide
        · exact literalBytes_nonzero member
    | argument => decide
  intro b member
  simp only [Directive.start, List.mem_cons, List.mem_append] at member
  rcases member with rfl | member | member | member
  · decide
  · exact flag b (d.known b member)
  · exact width b member
  · exact precision b member

theorem Directive.bytes_start (d : Directive) (c : Byte) : d.bytes c = d.start ++ [c] := by
  simp [Directive.bytes, Directive.start]

theorem Format.bytes_nonzero (format : Format) : ∀ b ∈ format.bytes, b ≠ 0 := by
  intro b member
  rcases List.mem_append.mp member with member | member
  · obtain ⟨piece, -, inside⟩ := List.mem_flatMap.mp member
    cases piece with
    | character c plain =>
        rw [List.mem_singleton.mp inside]
        exact plain.1
    | directive d conversion =>
        rw [Piece.bytes, Directive.bytes_start] at inside
        rcases List.mem_append.mp inside with inside | inside
        · exact d.start_nonzero b inside
        · rw [List.mem_singleton.mp inside]
          exact conversion.letter_nonzero
  · rw [Format.ending] at member
    cases unfinished : format.unfinished with
    | none => simp [unfinished] at member
    | some d =>
        rw [unfinished] at member
        exact d.start_nonzero b member

def Format.string (format : Format) : CString := ⟨format.bytes, format.bytes_nonzero⟩

end Bytes

section Passes

variable {args : Nat → Argument} {f : Frame} {rest : List Byte}

structure Frame.Shows (args : Nat → Argument) (f : Frame) (shown : List (Byte × BitVec 32))
    (next : Printing) (rest : List Byte) (g : Frame) : Prop where
  pass : vprintfPass args f = .again g
  after : g.format.after = rest
  emitted : g.console.emitted = f.console.emitted ++ shown
  color : g.color = next.color
  val : g.val = next.val

theorem convert_field (conversion : Conversion) {precision : Int} {val : Nat} {field : Field}
    (kind : conversion.field (args val) precision = some field) (before rest : List Byte) :
    convert args precision ⟨before, conversion.letter :: rest⟩ val =
      some (.field field, ⟨before, conversion.letter :: rest⟩, val + conversion.arguments) := by
  cases conversion with
  | number n =>
      rw [← Option.some.inj kind]
      exact n.convert_eq args precision before rest val
  | string =>
      rw [← Option.some.inj kind]
      rfl
  | character =>
      rw [← Option.some.inj kind]
      rfl
  | color => cases kind
  | other c letter known more =>
      rw [← Option.some.inj kind]
      have more : ¬ c = 0#8 := more
      have ne (b : Byte) (member : b ∈ conversionLetters) : c ≠ b := by
        intro same
        exact known (same ▸ member)
      simp [convert, Pointer.read, Conversion.letter, Conversion.arguments,
        ne (chr 'd') (by decide), ne (chr 'u') (by decide), ne (chr 'x') (by decide),
        ne (chr 'X') (by decide), ne (chr 's') (by decide), ne (chr 'C') (by decide),
        ne (chr 'c') (by decide), more]

theorem convert_color {precision : Int} (val : Nat) (before rest : List Byte) :
    convert args precision ⟨before, chr 'C' :: rest⟩ val =
      some (.color (args val).word, ⟨before, chr 'C' :: rest⟩, val + 1) := rfl

theorem convert_end {precision : Int} (val : Nat) (before : List Byte) :
    convert args precision ⟨before, [0]⟩ val =
      (Pointer.mk before [0]).prev.map fun p =>
        (.field ⟨[chr '%', 0], false, false⟩, p, val) := by
  cases before <;> rfl

theorem pass_character {c : Byte} (plain : c ≠ 0 ∧ c ≠ chr '%')
    (here : f.format.after = c :: rest) :
    ∃ g, f.Shows args [(c, f.color)] ⟨f.color, f.val⟩ rest g := by
  have read : f.format.read = some c := by rw [Pointer.read, here]; rfl
  have next : f.format.next = some ⟨c :: f.format.before, rest⟩ := by rw [Pointer.next, here]
  refine ⟨{ f with
    console := f.console.putc c f.color, format := ⟨c :: f.format.before, rest⟩ },
    ?_, rfl, Console.putc_emitted c f.color f.console, rfl, rfl⟩
  unfold vprintfPass Frame.body Frame.advance
  simp only [read, if_neg plain.1, if_pos plain.2, Option.bind_some, next, Option.map_some]

theorem Frame.directive_field {d : Directive} {c : Byte} (letter : Letter c)
    (here : f.format.after = d.bytes c ++ rest) :
    ∃ before,
      (convert args (d.precisionValue args f.val) ⟨before, c :: rest⟩ (d.argument f.val) = none →
        f.directive args = none) ∧
      ∀ (field : Field) (p : Pointer) (v : Nat),
        convert args (d.precisionValue args f.val) ⟨before, c :: rest⟩ (d.argument f.val) =
          some (.field field, p, v) → 0 ∈ field.data →
        ∃ text, (text.map fun c => (c, f.color)) = d.shows args ⟨f.color, f.val⟩ field ∧
          f.directive args =
            some { f with console := f.console.print f.color text, format := p, val := v } := by
  obtain ⟨before, step⟩ := @Frame.directive_eq d args f c rest letter here
  refine ⟨before, fun nothing => by rw [step, nothing, Option.bind_none],
    fun field p v converted ended => ?_⟩
  obtain ⟨len, found, enough⟩ := Field.len_some ended (d.precisionValue args f.val)
  refine ⟨field.text d.flagSet (d.widthValue args f.val) (d.precisionValue args f.val) len, ?_, ?_⟩
  · simp only [Directive.shows, found, Option.getD_some]
  · rw [step, converted, Option.bind_some]
    simp only [Console.putField_eq d.flagSet (d.widthValue args f.val) found enough,
      Option.bind_some]

theorem pass_directive {g : Frame} {b : Byte} {tail : List Byte}
    (here : f.format.after = chr '%' :: tail) (step : f.directive args = some g)
    (after : g.format.after = b :: rest) :
    vprintfPass args f = .again { g with format := ⟨b :: g.format.before, rest⟩ } := by
  have read : f.format.read = some (chr '%') := by rw [Pointer.read, here]; rfl
  have next : g.format.next = some ⟨b :: g.format.before, rest⟩ := by rw [Pointer.next, after]
  have nonzero : chr '%' ≠ 0 := by decide
  unfold vprintfPass Frame.body Frame.advance
  simp only [read, if_neg nonzero, ne_eq, not_true_eq_false, if_false, step, Option.bind_some,
    next, Option.map_some]

theorem field_ended {conversion : Conversion} {arg : Argument} {precision : Int} {field : Field}
    (kind : conversion.field arg precision = some field) : 0 ∈ field.data := by
  cases conversion with
  | number n =>
      rw [← Option.some.inj kind]
      exact List.mem_append_right _ (List.mem_singleton_self 0)
  | string =>
      rw [← Option.some.inj kind]
      exact List.mem_append_right _ (List.mem_singleton_self 0)
  | character | other =>
      rw [← Option.some.inj kind]
      exact List.mem_cons_of_mem _ (List.mem_singleton_self 0)
  | color => cases kind

theorem pass_piece (piece : Piece) (here : f.format.after = piece.bytes ++ rest) :
    ∃ g, f.Shows args (piece.shows args ⟨f.color, f.val⟩) (piece.next args ⟨f.color, f.val⟩)
      rest g := by
  cases piece with
  | character c plain => exact pass_character plain here
  | directive d conversion =>
      have letter := conversion.is_letter
      have first : f.format.after = chr '%' :: (d.flags ++ (d.width.bytes ++
          (d.precision.bytes ++ [conversion.letter])) ++ rest) := here
      cases kind : conversion.field (args (d.argument f.val)) (d.precisionValue args f.val) with
      | some field =>
          obtain ⟨before, -, laid⟩ := @Frame.directive_field args f rest d _ letter here
          obtain ⟨text, shown, step⟩ :=
            laid field _ _ (convert_field conversion kind before rest) (field_ended kind)
          have pass := pass_directive first step rfl
          refine ⟨_, pass, rfl, ?_, ?_, rfl⟩
          · simp only [Console.print_emitted, Piece.shows, kind, shown]
          · cases conversion with
            | color => cases kind
            | number | string | character | other => rfl
      | none =>
          cases conversion with
          | color =>
              obtain ⟨before, step⟩ := @Frame.directive_eq d args f _ rest letter here
              rw [Conversion.letter, convert_color, Option.bind_some] at step
              refine ⟨_, pass_directive first step rfl, rfl, ?_, rfl, rfl⟩
              rw [Piece.shows, kind, List.append_nil]
          | number | string | character | other => cases kind

theorem pass_unfinished {d : Directive} (here : f.format.after = d.start ++ [0])
    (inside : f.format.Inside) :
    ∃ g, f.Shows args (d.shows args ⟨f.color, f.val⟩ ⟨[chr '%', 0], false, false⟩)
      ⟨f.color, d.argument f.val⟩ [0] g := by
  have letter : Letter 0 := by constructor <;> decide
  have bytes : f.format.after = d.bytes 0 ++ [] := by
    rw [here, Directive.bytes_start, List.append_nil]
  obtain ⟨before, lost, laid⟩ := @Frame.directive_field args f [] d 0 letter bytes
  have converted := @convert_end args (d.precisionValue args f.val) (d.argument f.val) before
  cases before with
  | nil =>
      -- No pass gets lost: the '%' at least has been passed.
      have gone : vprintfPass args f = .leave none := by
        have read : f.format.read = some (chr '%') := by rw [Pointer.read, here]; rfl
        have nonzero : chr '%' ≠ 0 := by decide
        unfold vprintfPass Frame.body
        simp only [read, if_neg nonzero, ne_eq, not_true_eq_false, if_false, lost converted,
          Option.bind_none]
      rcases vprintfPass_safe args inside with left | ⟨g, -, again, -⟩
      · rw [gone] at left
        cases left
      · rw [gone] at again
        cases again
  | cons b before =>
      obtain ⟨text, shown, step⟩ := laid _ _ _ converted (by decide)
      have pass := pass_directive here step rfl
      refine ⟨_, pass, rfl, ?_, rfl, rfl⟩
      rw [Console.print_emitted, shown]

theorem pieces_run (pieces : List Piece)
    (here : f.format.after = pieces.flatMap Piece.bytes ++ rest) :
    ∃ n g, (∀ fuel, Loop.run (vprintfPass args) (fuel + n) f = Loop.run (vprintfPass args) fuel g) ∧
      g.format.after = rest ∧
      g.console.emitted = f.console.emitted ++ (Format.print args pieces ⟨f.color, f.val⟩).1 ∧
      (⟨g.color, g.val⟩ : Printing) = (Format.print args pieces ⟨f.color, f.val⟩).2 := by
  induction pieces generalizing f with
  | nil => exact ⟨0, f, fun _ => rfl, here, (List.append_nil _).symm, rfl⟩
  | cons piece pieces ih =>
      rw [List.flatMap_cons, List.append_assoc] at here
      obtain ⟨g, first⟩ := @pass_piece args f _ piece here
      obtain ⟨n, last, runs, after, emitted, state⟩ := ih first.after
      have next : (⟨g.color, g.val⟩ : Printing) = piece.next args ⟨f.color, f.val⟩ := by
        rw [first.color, first.val]
      rw [next] at emitted state
      refine ⟨n + 1, last, fun fuel => ?_, after, ?_, state⟩
      · rw [← Nat.add_assoc, Loop.run_again first.pass, runs]
      · rw [emitted, first.emitted, List.append_assoc]
        rfl

end Passes

section Calls

variable (format : Format) (args : Nat → Argument) (color : BitVec 32)
  (cells : BitVec 32 → BitVec 16) {start : Nat}

theorem vprintf_shows (cursor : BitVec 32) :
    ∃ fuel final, consoleVprintf fuel cursor cells color format.string args = some final ∧
      final.emitted = format.shows args color := by
  obtain ⟨n, g, runs, after, emitted, state⟩ := @pieces_run args
    (Frame.initial cursor cells color format.string) (format.ending ++ [0]) format.pieces
    (List.append_assoc _ _ _)
  have ends {g : Frame} (after : g.format.after = [0]) :
      vprintfPass args g = .leave (some g) := by
    unfold vprintfPass
    rw [Pointer.read, after]
    rfl
  rw [Format.ending] at after
  cases unfinished : format.unfinished with
  | none =>
      rw [unfinished] at after
      refine ⟨1 + n, g.console, ?_, ?_⟩
      · rw [consoleVprintf, runs, Loop.run_leave (ends after)]
        rfl
      · simp only [emitted, Format.shows, unfinished]
        rfl
  | some d =>
      rw [unfinished] at after
      obtain ⟨last, pass⟩ := @pass_unfinished args g d after ⟨⟨d.start, d.start_nonzero⟩, after⟩
      refine ⟨1 + 1 + n, last.console, ?_, ?_⟩
      · rw [consoleVprintf, runs, Loop.run_again pass.pass, Loop.run_leave (ends pass.after)]
        rfl
      · simp only [pass.emitted, emitted, state, Format.shows, unfinished]
        rfl

/-- What a format means comes up on the screen, on which it is printed as a terminal prints it. -/
theorem vprintf_prints (within : start ≤ 2000) :
    ∃ fuel final, consoleVprintf fuel (cell start) cells color format.string args = some final ∧
      final.emitted = format.shows args color ∧
      let t := Terminal.run 80 2000 ((format.shows args color).map terminalEvent)
        ⟨start, fun j => cells (cell j)⟩
      (∃ o, o ≤ 2000 ∧ final.cursor = cell o ∧ o ≡ t.position [MOD 2000]) ∧
        ∀ j, j < 2000 → final.cells (cell j) = t.screen j := by
  obtain ⟨fuel, final, ended, emitted⟩ := vprintf_shows format args color cells (cell start)
  obtain ⟨o, shown⟩ := vprintf_follows format.string args color cells within ended
  rw [emitted] at shown
  exact ⟨fuel, final, ended, emitted, ⟨o, shown.bound, shown.cursor, shown.place⟩, shown.screen⟩

end Calls

-- The format `a%C%c%5`: a character, a colour, a character in this colour, and no conversion.
theorem vprintf_prints_unfinished :
    let plain : Directive := ⟨[], by simp, .absent, .absent⟩
    let format : Format :=
      ⟨[.character (chr 'a') (by decide), .directive plain .color, .directive plain .character],
        some ⟨[], by simp, .literal [5] ⟨5, [], rfl, by decide⟩, .absent⟩⟩
    let args : Nat → Argument := fun i => ⟨if i = 0 then 0x100 else 0x62, emptyString⟩
    ∃ fuel final, consoleVprintf fuel (cell 1999) (fun _ => 0) 0x700 format.string args =
        some final ∧
      final.emitted = (chr 'a', 0x700) :: (("b    %".toList.map chr).map fun c => (c, 0x100)) := by
  intro plain format args
  obtain ⟨fuel, final, ended, emitted, -⟩ :=
    vprintf_prints format args 0x700 (fun _ => 0) (show 1999 ≤ 2000 by decide)
  exact ⟨fuel, final, ended, emitted.trans (by decide)⟩

end SchedOS
