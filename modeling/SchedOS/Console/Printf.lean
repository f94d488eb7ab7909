import SchedOS.Console.Putc
import SchedOS.Shared.Loop

set_option autoImplicit false

namespace SchedOS

-- An argument: what `va_arg` reads as an `int` or an `unsigned`, and the string that it points to
-- where it is read as a `char *`.
structure Argument where
  word : BitVec 32
  string : CString

def flagChars : List Byte := "#0- +".toList.map chr

def flagZero : Nat := 1
def flagLeftjustify : Nat := 2
def flagSpacepositive : Nat := 3
def flagPluspositive : Nat := 4

def Digit (b : Byte) : Prop := (chr '0').toInt ≤ b.toInt ∧ b.toInt ≤ (chr '9').toInt

instance : DecidablePred Digit := fun _ => inferInstanceAs (Decidable (_ ∧ _))

-- `for (; *format; ++format)` over the flags. The search in `flag_chars` ends at its NUL, or at the
-- flag's place.
def flagLoop (flags : Nat → Bool) : List Byte → List Byte → Option ((Nat → Bool) × Pointer)
  | _, [] => none
  | before, b :: rest =>
      if b = 0 then some (flags, ⟨before, b :: rest⟩)
      else if flagChars.idxOf b = flagChars.length then some (flags, ⟨before, b :: rest⟩)
      else flagLoop (Function.update flags (flagChars.idxOf b) true) (b :: before) rest

-- `while (*format >= '0' && *format <= '9') value = 10 * value + *format++ - '0';`
def digitLoop (value : Int) : List Byte → List Byte → Option (Int × Pointer)
  | _, [] => none
  | before, b :: rest =>
      if Digit b then
        digitLoop (wrapInt (10 * value + b.toInt - (chr '0').toInt)) (b :: before) rest
      else some (value, ⟨before, b :: rest⟩)

section Parse

variable (args : Nat → Argument) (p : Pointer) (val : Nat)

def readWidth : Option (Int × Pointer × Nat) := do
  let b ← p.read
  if Digit b ∧ b ≠ chr '0' then
    let (width, p) ← digitLoop 0 p.before p.after
    return (width, p, val)
  else if b = chr '*' then
    return ((args val).word.toInt, ← p.next, val + 1)
  else return (-1, p, val)

def readPrecisionValue : Option (Int × Pointer × Nat) := do
  let b ← p.read
  if Digit b then
    let (precision, p) ← digitLoop 0 p.before p.after
    return (precision, p, val)
  else if b = chr '*' then
    return ((args val).word.toInt, ← p.next, val + 1)
  else return (-1, p, val)

def readPrecision : Option (Int × Pointer × Nat) := do
  let b ← p.read
  if b = chr '.' then
    let (precision, p, val) ← readPrecisionValue args (← p.next) val
    return (if precision < 0 then 0 else precision, p, val)
  else return (-1, p, val)

end Parse

-- `data`, `numeric` and `negative` after the `switch`; the memory at `data` is listed.
structure Field where
  data : List Byte
  numeric : Bool
  negative : Bool

inductive Converted where
  | field (field : Field)
  | color (color : BitVec 32)

def number (val base : Nat) (digits : List Byte) (precision : Int) (negative : Bool) :
    Option Converted := do
  let (_, data) ← fillNumbuf numbufsiz val base digits precision
  return .field ⟨data, true, negative⟩

def convert (args : Nat → Argument) (precision : Int) (p : Pointer) (val : Nat) :
    Option (Converted × Pointer × Nat) := do
  let b ← p.read
  if b = chr 'd' then
    let x := (args val).word
    let magnitude := if x.toInt > 0 then x else -x
    return (← number magnitude.toNat 10 upperDigits precision (decide (x.toInt < 0)), p, val + 1)
  else if b = chr 'u' then
    return (← number (args val).word.toNat 10 upperDigits precision false, p, val + 1)
  else if b = chr 'x' then
    return (← number (args val).word.toNat 16 lowerDigits precision false, p, val + 1)
  else if b = chr 'X' then
    return (← number (args val).word.toNat 16 upperDigits precision false, p, val + 1)
  else if b = chr 's' then
    return (.field ⟨(args val).string.memory, false, false⟩, p, val + 1)
  else if b = chr 'C' then
    return (.color (args val).word, p, val + 1)
  else if b = chr 'c' then
    return (.field ⟨[(args val).word.setWidth 8, 0], false, false⟩, p, val + 1)
  else if b ≠ 0 then
    return (.field ⟨[b, 0], false, false⟩, p, val)
  else
    -- At the end of the string a lone '%' is printed, and the outer loop has to find the end again.
    return (.field ⟨[chr '%', 0], false, false⟩, ← p.prev, val)

section Layout

variable (flags : Nat → Bool) (width precision : Int) (field : Field)

-- `len`, as far as it fits into an `int`.
def Field.len : Option Int :=
  if precision ≥ 0 then (strnlen field.data precision.toNat).map fun n => wrapInt n
  else (strlen field.data).map fun n => wrapInt n

def Field.sign : Byte :=
  if field.numeric ∧ field.negative then chr '-'
  else if flags flagPluspositive then chr '+'
  else if flags flagSpacepositive then chr ' '
  else 0

def signLength (sign : Byte) : Int := if sign ≠ 0 then 1 else 0

def Field.zeros (len : Int) : Int :=
  if field.numeric ∧ precision > len then wrapInt (precision - len)
  else if (flags flagZero ∧ ¬ flags flagLeftjustify) ∧ field.numeric ∧ precision < 0 ∧
      wrapInt (len + signLength (field.sign flags)) < width then
    wrapInt (width - len - signLength (field.sign flags))
  else 0

-- `width -= len + zeros + !!negative`.
def Field.spaces (len : Int) : Int :=
  wrapInt (width -
    wrapInt (len + field.zeros flags width precision len + signLength (field.sign flags)))

end Layout

namespace Console

def putTimes (c : Byte) (color : BitVec 32) (n : Int) (s : Console) : Console :=
  (putc c color)^[n.toNat] s

def putText (color : BitVec 32) : Nat → List Byte → Console → Option Console
  | 0, _, s => some s
  | _ + 1, [], _ => none
  | n + 1, b :: data, s => putText color n data (s.putc b color)

def putField (flags : Nat → Bool) (width precision : Int) (field : Field) (color : BitVec 32)
    (s : Console) : Option Console := do
  let len ← field.len precision
  let sign := field.sign flags
  let zeros := field.zeros flags width precision len
  let width := field.spaces flags width precision len
  let left := flags flagLeftjustify
  let s := if ¬ left then s.putTimes (chr ' ') color width else s
  let width := if ¬ left ∧ width > 0 then 0 else width
  let s := if sign ≠ 0 then s.putc sign color else s
  let s := s.putTimes (chr '0') color zeros
  let s ← s.putText color len.toNat field.data
  return s.putTimes (chr ' ') color width

end Console

structure Frame where
  console : Console
  color : BitVec 32
  format : Pointer
  val : Nat

-- A pass of the outer loop at a '%', up to the label `done`.
def Frame.directive (args : Nat → Argument) (f : Frame) : Option Frame := do
  let p ← f.format.next
  let (flags, p) ← flagLoop (fun _ => false) p.before p.after
  let (width, p, val) ← readWidth args p f.val
  let (precision, p, val) ← readPrecision args p val
  match ← convert args precision p val with
  | (.color color, p, val) => return { f with color := color, format := p, val := val }
  | (.field field, p, val) =>
      let console ← f.console.putField flags width precision field f.color
      return { f with console := console, format := p, val := val }

def Frame.body (args : Nat → Argument) (b : Byte) (f : Frame) : Option Frame :=
  if b ≠ chr '%' then some { f with console := f.console.putc b f.color } else f.directive args

def Frame.advance (f : Frame) : Option Frame := f.format.next.map fun p => { f with format := p }

def vprintfPass (args : Nat → Argument) (f : Frame) : Loop.Pass Frame (Option Frame) :=
  match f.format.read with
  | none => .leave none
  | some b =>
      if b = 0 then .leave (some f)
      else
        match (f.body args b).bind Frame.advance with
        | none => .leave none
        | some f => .again f

def Frame.initial (cursor : BitVec 32) (cells : BitVec 32 → BitVec 16) (color : BitVec 32)
    (format : CString) : Frame :=
  { console := .fresh cursor cells, color := color, format := ⟨[], format.memory⟩, val := 0 }

/-- `console_vprintf`, with fuel for its outer loop. -/
def consoleVprintf (fuel : Nat) (cursor : BitVec 32) (cells : BitVec 32 → BitVec 16)
    (color : BitVec 32) (format : CString) (args : Nat → Argument) : Option Console :=
  ((Loop.run (vprintfPass args) fuel (.initial cursor cells color format)).join).map Frame.console

end SchedOS
