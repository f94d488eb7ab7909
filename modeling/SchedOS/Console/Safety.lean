import SchedOS.Console.Field

set_option autoImplicit false

namespace SchedOS

def Pointer.Inside (p : Pointer) : Prop := ∃ s : CString, p.after = s.memory

structure Pointer.Parsing (most : Nat) (p : Pointer) : Prop where
  inside : p.Inside
  started : p.before ≠ []
  near : p.after.length ≤ most

theorem Pointer.Inside.read {p : Pointer} (inside : p.Inside) : ∃ b, p.read = some b := by
  obtain ⟨⟨bytes, _⟩, same⟩ := inside
  cases bytes with
  | nil => exact ⟨0, by rw [Pointer.read, same]; rfl⟩
  | cons b rest => exact ⟨b, by rw [Pointer.read, same]; rfl⟩

theorem Pointer.read_cons {p : Pointer} {b : Byte} (found : p.read = some b) :
    ∃ rest, p = ⟨p.before, b :: rest⟩ := by
  obtain ⟨before, after⟩ := p
  cases after with
  | nil => simp [Pointer.read] at found
  | cons c rest =>
      rw [Pointer.read, List.head?_cons, Option.some.injEq] at found
      exact ⟨rest, by rw [found]⟩

theorem Pointer.inside_next {before rest : List Byte} {b : Byte}
    (inside : (Pointer.mk before (b :: rest)).Inside) (more : b ≠ 0) (passed : List Byte) :
    (Pointer.mk passed rest).Inside := by
  obtain ⟨⟨bytes, nonzero⟩, same⟩ := inside
  cases bytes with
  | nil =>
      have zero : b = 0 := (List.cons.inj same).1
      exact absurd zero more
  | cons c bytes =>
      exact ⟨⟨bytes, fun d member => nonzero d (List.mem_cons_of_mem c member)⟩,
        (List.cons.inj same).2⟩

section Parsing

variable {most : Nat} {p : Pointer} {b : Byte}

theorem Pointer.Parsing.step {before rest : List Byte}
    (parsing : (Pointer.mk before (b :: rest)).Parsing most) (more : b ≠ 0) :
    (Pointer.mk (b :: before) rest).Parsing most :=
  ⟨Pointer.inside_next parsing.inside more _, List.cons_ne_nil b before,
    Nat.le_of_succ_le parsing.near⟩

theorem Pointer.Parsing.next (parsing : p.Parsing most) (found : p.read = some b) (more : b ≠ 0) :
    ∃ q, p.next = some q ∧ q.Parsing most := by
  obtain ⟨rest, same⟩ := Pointer.read_cons found
  rw [same] at parsing ⊢
  exact ⟨_, rfl, parsing.step more⟩

theorem flagLoop_safe {before after : List Byte} (parsing : (Pointer.mk before after).Parsing most)
    (flags : Nat → Bool) :
    ∃ set q, flagLoop flags before after = some (set, q) ∧ q.Parsing most := by
  induction after generalizing before flags with
  | nil =>
      obtain ⟨b, found⟩ := parsing.inside.read
      simp [Pointer.read] at found
  | cons b rest ih =>
      rw [flagLoop]
      split
      · exact ⟨flags, _, rfl, parsing⟩
      next more =>
        split
        · exact ⟨flags, _, rfl, parsing⟩
        · exact ih (parsing.step more) _

theorem digit_nonzero (digit : Digit b) : b ≠ 0 := by
  rintro rfl
  exact absurd digit (by decide)

theorem digitLoop_safe {before after : List Byte} (parsing : (Pointer.mk before after).Parsing most)
    (value : Int) : ∃ read q, digitLoop value before after = some (read, q) ∧ q.Parsing most := by
  induction after generalizing before value with
  | nil =>
      obtain ⟨b, found⟩ := parsing.inside.read
      simp [Pointer.read] at found
  | cons b rest ih =>
      rw [digitLoop]
      split
      next digit => exact ih (parsing.step (digit_nonzero digit)) _
      · exact ⟨value, _, rfl, parsing⟩

variable (args : Nat → Argument) (val : Nat)

theorem readWidth_safe (parsing : p.Parsing most) :
    ∃ width q used, readWidth args p val = some (width, q, used) ∧ q.Parsing most := by
  obtain ⟨b, found⟩ := parsing.inside.read
  unfold readWidth
  simp only [found, Option.bind_eq_bind, Option.bind_some, Option.pure_def]
  split
  · obtain ⟨width, q, read, kept⟩ := digitLoop_safe parsing 0
    exact ⟨width, q, val, by rw [read]; rfl, kept⟩
  · split
    next star =>
      obtain ⟨q, next, kept⟩ := parsing.next found (by rw [star]; decide)
      exact ⟨_, q, val + 1, by rw [next]; rfl, kept⟩
    · exact ⟨-1, p, val, rfl, parsing⟩

theorem readPrecisionValue_safe (parsing : p.Parsing most) :
    ∃ precision q used, readPrecisionValue args p val = some (precision, q, used) ∧
      q.Parsing most := by
  obtain ⟨b, found⟩ := parsing.inside.read
  unfold readPrecisionValue
  simp only [found, Option.bind_eq_bind, Option.bind_some, Option.pure_def]
  split
  · obtain ⟨precision, q, read, kept⟩ := digitLoop_safe parsing 0
    exact ⟨precision, q, val, by rw [read]; rfl, kept⟩
  · split
    next star =>
      obtain ⟨q, next, kept⟩ := parsing.next found (by rw [star]; decide)
      exact ⟨_, q, val + 1, by rw [next]; rfl, kept⟩
    · exact ⟨-1, p, val, rfl, parsing⟩

theorem readPrecision_safe (parsing : p.Parsing most) :
    ∃ precision q used, readPrecision args p val = some (precision, q, used) ∧
      q.Parsing most := by
  obtain ⟨b, found⟩ := parsing.inside.read
  unfold readPrecision
  simp only [found, Option.bind_eq_bind, Option.bind_some, Option.pure_def]
  split
  next point =>
    obtain ⟨q, next, kept⟩ := parsing.next found (by rw [point]; decide)
    obtain ⟨precision, r, used, read, kept⟩ := readPrecisionValue_safe args val kept
    exact ⟨_, r, used, by rw [next, Option.bind_some, read]; rfl, kept⟩
  · exact ⟨-1, p, val, rfl, parsing⟩

def Converted.Printable : Converted → Prop
  | .field f => 0 ∈ f.data
  | .color _ => True

def Pointer.Leaving (most : Nat) (q : Pointer) : Prop :=
  ∃ r, q.next = some r ∧ r.Inside ∧ r.after.length ≤ most

theorem Pointer.Parsing.leaving (parsing : p.Parsing most) (found : p.read = some b)
    (more : b ≠ 0) : p.Leaving most := by
  obtain ⟨q, next, kept⟩ := parsing.next found more
  exact ⟨q, next, kept.inside, kept.near⟩

theorem Pointer.Parsing.back (parsing : p.Parsing most) :
    ∃ q, p.prev = some q ∧ q.Leaving most := by
  obtain ⟨before, after⟩ := p
  cases before with
  | nil => exact absurd rfl parsing.started
  | cons b before => exact ⟨_, rfl, _, rfl, parsing.inside, parsing.near⟩

theorem number_safe {base : Nat} {digits : List Byte} (known : Numerals base digits) {n : Nat}
    (word : n < 2 ^ 32) (precision : Int) (negative : Bool) :
    ∃ field, number n base digits precision negative = some (.field field) ∧
      0 ∈ field.data :=
  ⟨_, number_eq known word precision negative, List.mem_append_right _ (List.mem_singleton_self 0)⟩

theorem convert_safe (parsing : p.Parsing most) (precision : Int) :
    ∃ converted q used, convert args precision p val = some (converted, q, used) ∧
      converted.Printable ∧ q.Leaving most := by
  obtain ⟨b, found⟩ := parsing.inside.read
  have numeric {base : Nat} {digits : List Byte} (known : Numerals base digits) (x : BitVec 32)
      (negative : Bool) (more : b ≠ 0) : ∃ converted q used,
      ((number x.toNat base digits precision negative).bind fun c => some (c, p, val + 1)) =
        some (converted, q, used) ∧ converted.Printable ∧ q.Leaving most := by
    obtain ⟨field, made, ended⟩ := number_safe known x.isLt precision negative
    exact ⟨.field field, p, val + 1, by rw [made]; rfl, ended, parsing.leaving found more⟩
  unfold convert
  simp only [found, Option.bind_eq_bind, Option.bind_some, Option.pure_def]
  split
  next letter => exact numeric upperDecimal _ _ (by rw [letter]; decide)
  split
  next letter => exact numeric upperDecimal _ _ (by rw [letter]; decide)
  split
  next letter => exact numeric lowerHexadecimal _ _ (by rw [letter]; decide)
  split
  next letter => exact numeric upperHexadecimal _ _ (by rw [letter]; decide)
  split
  next letter =>
    exact ⟨_, p, val + 1, rfl, List.mem_append_right _ (List.mem_singleton_self 0),
      parsing.leaving found (by rw [letter]; decide)⟩
  split
  next letter =>
    exact ⟨_, p, val + 1, rfl, trivial, parsing.leaving found (by rw [letter]; decide)⟩
  split
  next letter =>
    exact ⟨_, p, val + 1, rfl, by simp [Converted.Printable],
      parsing.leaving found (by rw [letter]; decide)⟩
  split
  next more =>
    exact ⟨_, p, val, rfl, by simp [Converted.Printable], parsing.leaving found more⟩
  · obtain ⟨q, back, kept⟩ := parsing.back
    exact ⟨_, q, val, by rw [back]; rfl, by simp [Converted.Printable], kept⟩

end Parsing

section Passes

variable (args : Nat → Argument)

theorem Frame.directive_safe {f : Frame} {rest : List Byte} {b : Byte} (more : b ≠ 0)
    (here : f.format = ⟨f.format.before, b :: rest⟩) (inside : f.format.Inside) :
    ∃ g text, f.directive args = some g ∧ g.console = f.console.print f.color text ∧
      g.format.Leaving rest.length := by
  have next : f.format.next = some ⟨b :: f.format.before, rest⟩ := by rw [here]; rfl
  have started : (Pointer.mk (b :: f.format.before) rest).Parsing rest.length :=
    ⟨Pointer.inside_next (here ▸ inside) more _, List.cons_ne_nil _ _, le_rfl⟩
  obtain ⟨flags, p, flagged, parsing⟩ := flagLoop_safe started fun _ => false
  obtain ⟨width, q, used, widthRead, parsing⟩ := readWidth_safe args f.val parsing
  obtain ⟨precision, r, val, precisionRead, parsing⟩ := readPrecision_safe args used parsing
  obtain ⟨converted, last, val', conversion, printable, leaving⟩ :=
    convert_safe args val parsing precision
  unfold Frame.directive
  simp only [next, flagged, widthRead, precisionRead, conversion, Option.bind_eq_bind,
    Option.bind_some, Option.pure_def]
  cases converted with
  | color color => exact ⟨_, [], rfl, rfl, leaving⟩
  | field field =>
      obtain ⟨len, found, enough⟩ := Field.len_some printable precision
      simp only [Console.putField_eq flags width found enough, Option.bind_some]
      exact ⟨_, _, rfl, rfl, leaving⟩

theorem vprintfPass_safe {f : Frame} (inside : f.format.Inside) :
    vprintfPass args f = .leave (some f) ∨
      ∃ g text, vprintfPass args f = .again g ∧ g.console = f.console.print f.color text ∧
        g.format.Inside ∧ g.format.after.length < f.format.after.length := by
  obtain ⟨b, found⟩ := inside.read
  unfold vprintfPass
  simp only [found]
  by_cases ended : b = 0
  · exact .inl (if_pos ended)
  right
  rw [if_neg ended]
  obtain ⟨rest, here⟩ := Pointer.read_cons found
  have less : rest.length < f.format.after.length := by
    rw [here]
    exact Nat.lt_succ_self _
  have passed : ∃ g text, f.body args b = some g ∧ g.console = f.console.print f.color text ∧
      g.format.Leaving rest.length := by
    unfold Frame.body
    split
    · refine ⟨_, [b], rfl, rfl, ⟨b :: f.format.before, rest⟩, by rw [here]; rfl, ?_, le_rfl⟩
      exact Pointer.inside_next (here ▸ inside) ended _
    · exact Frame.directive_safe args ended here inside
  obtain ⟨g, text, bodyRun, printed, r, next, kept, most⟩ := passed
  refine ⟨{ g with format := r }, text, ?_, printed, kept, most.trans_lt less⟩
  rw [bodyRun, Option.bind_some, Frame.advance, next]
  rfl

end Passes

/-- The console shows what the wrapping terminal shows after all characters so far. -/
def Console.Follows (memory : BitVec 32 → BitVec 16) (start : Terminal.State (BitVec 16))
    (s : Console) : Prop :=
  ∃ o, s.Shows memory (Terminal.run 80 2000 (s.emitted.map terminalEvent) start) o

theorem Console.Follows.print {memory : BitVec 32 → BitVec 16} {start : Terminal.State (BitVec 16)}
    {s : Console} (follows : s.Follows memory start) (color : BitVec 32) (text : List Byte) :
    (s.print color text).Follows memory start := by
  induction text generalizing s with
  | nil => exact follows
  | cons c text ih =>
      obtain ⟨o, shown⟩ := follows
      obtain ⟨o', after⟩ := shown.putc c color
      refine ih ⟨o', ?_⟩
      rw [putc_emitted, List.map_append, Terminal.run, List.foldl_append]
      exact after

theorem Console.fresh_follows {start : Nat} (within : start ≤ 2000)
    (cells : BitVec 32 → BitVec 16) :
    (Console.fresh (cell start) cells).Follows cells ⟨start, fun j => cells (cell j)⟩ :=
  ⟨start, within, rfl, rfl, fun _ _ => rfl, fun _ member => absurd member List.not_mem_nil,
    fun _ _ => rfl⟩

section Calls

variable (format : CString) (args : Nat → Argument) (color : BitVec 32)
  (cells : BitVec 32 → BitVec 16) {start : Nat}

def Frame.Good (start : Nat) (f : Frame) : Prop :=
  f.format.Inside ∧ f.console.Follows cells ⟨start, fun j => cells (cell j)⟩

theorem Frame.initial_good (within : start ≤ 2000) :
    (Frame.initial (cell start) cells color format).Good cells start :=
  ⟨⟨format, rfl⟩, Console.fresh_follows within cells⟩

theorem vprintfPass_again {f next : Frame} (good : f.Good cells start)
    (again : vprintfPass args f = .again next) :
    next.Good cells start ∧ next.format.after.length < f.format.after.length := by
  rcases vprintfPass_safe args good.1 with leave | ⟨g, text, same, printed, inside, less⟩
  · rw [leave] at again
    cases again
  · rw [same] at again
    cases again
    exact ⟨⟨inside, printed ▸ good.2.print f.color text⟩, less⟩

theorem vprintfPass_leave {f : Frame} {result : Option Frame} (good : f.Good cells start)
    (left : vprintfPass args f = .leave result) :
    ∃ last, result = some last ∧ last.Good cells start := by
  rcases vprintfPass_safe args good.1 with leave | ⟨g, text, same, -, -, -⟩
  · rw [leave] at left
    cases left
    exact ⟨f, rfl, good⟩
  · rw [same] at left
    cases left

theorem loop_follows (within : start ≤ 2000) {fuel : Nat} {result : Option Frame}
    (ended : Loop.run (vprintfPass args) fuel (.initial (cell start) cells color format) =
      some result) : ∃ last, result = some last ∧ last.Good cells start :=
  Loop.Leaves.post (Frame.Good cells start) (fun result => ∃ last, result = some last ∧ _)
    ⟨fuel, ended⟩ (Frame.initial_good format color cells within)
    (fun _ _ good again => (vprintfPass_again args cells good again).1)
    (fun _ _ good left => vprintfPass_leave args cells good left)

theorem vprintf_follows (within : start ≤ 2000) {fuel : Nat} {final : Console}
    (ended : consoleVprintf fuel (cell start) cells color format args = some final) :
    final.Follows cells ⟨start, fun j => cells (cell j)⟩ := by
  obtain ⟨last, joined, rfl⟩ := Option.map_eq_some_iff.mp ended
  obtain ⟨last', same, good⟩ :=
    loop_follows format args color cells within (Option.join_eq_some_iff.mp joined)
  rw [Option.some.inj same]
  exact good.2

theorem vprintf_ends (within : start ≤ 2000) :
    ∃ fuel final, consoleVprintf fuel (cell start) cells color format args = some final := by
  have initial := Frame.initial_good format color cells within
  have bounded : ∃ fuel result, Loop.run (vprintfPass args) fuel
      (.initial (cell start) cells color format) = some result :=
    ⟨_, Loop.ends_within (vprintfPass args) (Frame.Good cells start)
      (fun f => f.format.after.length)
      (fun _ _ good again => vprintfPass_again args cells good again) initial
      (Nat.lt_succ_self _)⟩
  obtain ⟨fuel, result, ended⟩ := bounded
  obtain ⟨last, rfl, -⟩ := loop_follows format args color cells within ended
  refine ⟨fuel, last.console, ?_⟩
  rw [consoleVprintf, ended]
  rfl

theorem vprintf_safe (within : start ≤ 2000) :
    ∃ fuel final, consoleVprintf fuel (cell start) cells color format args = some final ∧
      (∀ x ∈ final.stores, ∃ i, i < 2000 ∧ x.1 = cell i) ∧
      (∀ a, (∀ i, i < 2000 → a ≠ cell i) → final.cells a = cells a) ∧
      let t := Terminal.run 80 2000 (final.emitted.map terminalEvent)
        ⟨start, fun j => cells (cell j)⟩
      (∃ o, o ≤ 2000 ∧ final.cursor = cell o ∧ o ≡ t.position [MOD 2000]) ∧
        ∀ j, j < 2000 → final.cells (cell j) = t.screen j := by
  obtain ⟨fuel, final, ended⟩ := vprintf_ends format args color cells within
  obtain ⟨o, shown⟩ := vprintf_follows format args color cells within ended
  exact ⟨fuel, final, ended, shown.inside, shown.frame,
    ⟨o, shown.bound, shown.cursor, shown.place⟩, shown.screen⟩

end Calls

theorem vprintf_safe_truncated :
    let format : CString := ⟨"\n%05.".toList.map chr, by decide⟩
    ∃ fuel final, consoleVprintf fuel (cell 2000) (fun _ => 0) 0x700 format
        (fun _ => ⟨0, format⟩) = some final ∧
      ∀ x ∈ final.stores, ∃ i, i < 2000 ∧ x.1 = cell i := by
  intro format
  obtain ⟨fuel, final, ended, inside, -⟩ :=
    vprintf_safe format (fun _ => ⟨0, format⟩) 0x700 (fun _ => 0) (le_refl 2000)
  exact ⟨fuel, final, ended, inside⟩

end SchedOS
