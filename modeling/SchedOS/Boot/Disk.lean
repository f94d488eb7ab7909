import SchedOS.Console.Text
import SchedOS.Shared.Loop

set_option autoImplicit false

namespace SchedOS

inductive WriteResult where
  | wrote (count : Nat)
  | interrupted
  | failed

-- What is written so far. The counters are exact: before one of them wraps, `curoff` has left the
-- range of `off_t`.
structure Output where
  written : List Byte
  curoff : Nat
  calls : Nat

def Output.empty : Output := ⟨[], 0, 0⟩

-- A part of the program: it may never end, or end the program with status 1.
abbrev Disk := StateT Output (ExceptT Output Option)

section Program

variable {α : Type} (fuel : Nat) (writes : Nat → WriteResult)

-- The message of `usage` and its callers goes to the standard error output.
def usage : Disk α := fun o => some (.error o)

-- The loop of `diskwrite`. The limit `maxoff` is 0, so the test before the loop never fails.
def diskwritePass : List Byte × Output → Loop.Pass (List Byte × Output) (Except Output Output)
  | (data, o) =>
      if data.length > 0 then
        match writes o.calls with
        | .interrupted => .again (data, { o with calls := o.calls + 1 })
        | .failed => .leave (.error { o with calls := o.calls + 1 })
        | .wrote count =>
            let w := min count data.length
            if w = 0 then .leave (.error { o with calls := o.calls + 1 })
            else .again (data.drop w,
              { written := o.written ++ data.take w, curoff := o.curoff + w, calls := o.calls + 1 })
      else .leave (.ok o)

def diskwrite (data : List Byte) : Disk Unit := fun o =>
  (Loop.run (diskwritePass writes) fuel (data, o)).map (Except.map ((), ·))

-- `while ((n = fread(buf, 1, 4096, f)) > 0) { diskwrite(buf, n); pos += n; }`
def writeFile (content : List Byte) (pos : Nat) : Disk Nat :=
  if content = [] then pure pos
  else do
    diskwrite fuel writes (content.take 4096)
    writeFile (content.drop 4096) (pos + (content.take 4096).length)
termination_by content.length
decreasing_by
  rw [List.length_drop]
  have := List.length_pos_iff.mpr ‹_›
  omega

def zerobuf (amt : Nat) : List Byte := List.replicate amt 0

def padFile (pos : Nat) : Disk Nat :=
  if pos % 512 ≠ 0 then do
    diskwrite fuel writes (zerobuf (512 - pos % 512))
    pure (pos + (512 - pos % 512))
  else pure pos

def zeroSectors : Nat → Disk Unit
  | 0 => pure ()
  | n + 1 => do
      diskwrite fuel writes (zerobuf 512)
      zeroSectors n

-- `while (nsectors < sector) { diskwrite(zerobuf, 512); nsectors++; }`
def fillTo (sector nsectors : Nat) : Disk Nat := do
  zeroSectors fuel writes (sector - nsectors)
  pure (max nsectors sector)

end Program

section Directives

def digitOf (c : Byte) : Option Nat :=
  if chr '0' ≤ c ∧ c ≤ chr '9' then some (c - chr '0').toNat
  else if chr 'a' ≤ c ∧ c ≤ chr 'z' then some ((c - chr 'a').toNat + 10)
  else if chr 'A' ≤ c ∧ c ≤ chr 'Z' then some ((c - chr 'A').toNat + 10)
  else none

def readNumber (base : Nat) : Nat → List Byte → Nat × List Byte
  | n, [] => (n, [])
  | n, c :: rest =>
      match digitOf c with
      | some d => if d < base then readNumber base (base * n + d) rest else (n, c :: rest)
      | none => (n, c :: rest)

-- `strtoul(text, &rest, 0)` for a text that starts with a digit.
def strtoul (ulongMax : Nat) (text : List Byte) : Nat × List Byte :=
  let (n, rest) :=
    match text with
    | zero :: x :: digit :: more =>
        if zero = chr '0' ∧ (x = chr 'x' ∨ x = chr 'X') ∧ (∃ d ∈ digitOf digit, d < 16) then
          readNumber 16 0 (digit :: more)
        else readNumber (if zero = chr '0' then 8 else 10) 0 text
    | first :: _ => readNumber (if first = chr '0' then 8 else 10) 0 text
    | [] => (0, [])
  (min n ulongMax, rest)

def skipDirective (ulongMax : Nat) : List Byte → Option Nat
  | at_ :: digit :: more =>
      if at_ = chr '@' ∧ chr '0' ≤ digit ∧ digit ≤ chr '9' ∧
          (strtoul ulongMax (digit :: more)).2 = [] then
        some (strtoul ulongMax (digit :: more)).1
      else none
  | _ => none

end Directives

section Main

variable (fuel : Nat) (writes : Nat → WriteResult) (ulongMax : Nat)
  (files : List Byte → Option (List Byte))

def fopencheck (name : List Byte) : Disk (List Byte) :=
  match files name with
  | none => usage
  | some content => pure content

def writeArguments : List (List Byte) → Nat → Disk Nat
  | [], nsectors => pure nsectors
  | arg :: rest, nsectors =>
      match skipDirective ulongMax arg with
      | some sector =>
          if nsectors > sector then usage
          else do
            let nsectors ← fillTo fuel writes sector nsectors
            writeArguments rest nsectors
      | none => do
          let content ← fopencheck files arg
          let pos ← writeFile fuel writes content 0
          let pos ← padFile fuel writes pos
          writeArguments rest (nsectors + pos / 512)

/-- `main` of `mkbootdisk.c`, with the arguments after the program's name. -/
def mkbootdisk : List (List Byte) → Disk Nat
  | [] => usage
  | boot :: rest => do
      let content ← fopencheck files boot
      let block := content.take 4096
      if block.length > 510 then usage
      else do
        diskwrite fuel writes (block ++ zerobuf (510 - block.length) ++ [0x55, 0xAA])
        let nsectors ← writeArguments fuel writes ulongMax files rest 1
        fillTo fuel writes 1024 nsectors

end Main

end SchedOS
