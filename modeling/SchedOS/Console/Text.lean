import Mathlib.Tactic.Common

set_option autoImplicit false

namespace SchedOS

abbrev Byte := BitVec 8

def chr (c : Char) : Byte := BitVec.ofNat 8 c.toNat

-- What remains in an `int` of the exact result of an operation.
def wrapInt (x : Int) : Int := (x + 2147483648) % 4294967296 - 2147483648

theorem wrapInt_eq {x : Int} (low : -2147483648 ≤ x) (high : x ≤ 2147483647) : wrapInt x = x := by
  unfold wrapInt
  omega

structure CString where
  bytes : List Byte
  nonzero : ∀ b ∈ bytes, b ≠ 0

def CString.memory (s : CString) : List Byte := s.bytes ++ [0]

def emptyString : CString := ⟨[], by simp⟩

def strlen : List Byte → Option Nat
  | [] => none
  | b :: rest => if b = 0 then some 0 else (strlen rest).map (· + 1)

def strnlen : List Byte → Nat → Option Nat
  | _, 0 => some 0
  | [], _ + 1 => none
  | b :: rest, maxlen + 1 => if b = 0 then some 0 else (strnlen rest maxlen).map (· + 1)

theorem strlen_memory (s : CString) : strlen s.memory = some s.bytes.length := by
  obtain ⟨bytes, nonzero⟩ := s
  unfold CString.memory
  induction bytes with
  | nil => rfl
  | cons b rest ih =>
      obtain ⟨here, later⟩ := List.forall_mem_cons.mp nonzero
      rw [List.cons_append, strlen, if_neg here, ih later]
      rfl

theorem strnlen_memory (s : CString) (maxlen : Nat) :
    strnlen s.memory maxlen = some (min maxlen s.bytes.length) := by
  obtain ⟨bytes, nonzero⟩ := s
  unfold CString.memory
  induction bytes generalizing maxlen with
  | nil =>
      cases maxlen with
      | zero => rfl
      | succ maxlen => simp [strnlen]
  | cons b rest ih =>
      obtain ⟨here, later⟩ := List.forall_mem_cons.mp nonzero
      cases maxlen with
      | zero => simp [strnlen]
      | succ maxlen =>
          rw [List.cons_append, strnlen, if_neg here, ih maxlen later]
          simp

-- A pointer into a string in memory: the bytes it has passed, latest first, and those it can
-- still read.
structure Pointer where
  before : List Byte
  after : List Byte

namespace Pointer

def read (p : Pointer) : Option Byte := p.after.head?

def next (p : Pointer) : Option Pointer :=
  match p.after with
  | [] => none
  | b :: rest => some ⟨b :: p.before, rest⟩

def prev (p : Pointer) : Option Pointer :=
  match p.before with
  | [] => none
  | b :: rest => some ⟨rest, b :: p.after⟩

end Pointer

def upperDigits : List Byte := "0123456789ABCDEF".toList.map chr
def lowerDigits : List Byte := "0123456789abcdef".toList.map chr

def numbufsiz : Nat := 20

-- The `do` loop of `fill_numbuf`. The pointer is the number of bytes in the buffer below it.
def fillDigits (base : Nat) (digits : List Byte) : Nat → List Byte → Nat → Option (Nat × List Byte)
  | 0, _, _ => none
  | room + 1, text, val =>
      let text := digits.getD (val % base) 0 :: text
      if val / base ≠ 0 then fillDigits base digits room text (val / base) else some (room, text)

/-- `fill_numbuf`: the pointer it returns, and the bytes from there to the end of the buffer. -/
def fillNumbuf (numbufEnd : Nat) (val base : Nat) (digits : List Byte) (precision : Int) :
    Option (Nat × List Byte) :=
  match numbufEnd with
  | 0 => none
  | room + 1 =>
      if precision ≠ 0 ∨ val ≠ 0 then fillDigits base digits room [0] val else some (room, [0])

end SchedOS
