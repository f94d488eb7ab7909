import SchedOS.Console.Text
import SchedOS.Kernel.Start
import SchedOS.Shared.Terminal

set_option autoImplicit false

namespace SchedOS

def consoleEnd : BitVec 32 := cell (80 * 25)

/-- The cursor and the cells. The code keeps no record of the stores it has done and of the
characters, with their colours, that `console_putc` was given; here they are listed. -/
structure Console where
  cursor : BitVec 32
  cells : BitVec 32 → BitVec 16
  stores : List (BitVec 32 × BitVec 16)
  emitted : List (Byte × BitVec 32)

def glyph (c : Byte) (color : BitVec 32) : BitVec 16 := (c.setWidth 32 ||| color).setWidth 16

namespace Console

def fresh (cursor : BitVec 32) (cells : BitVec 32 → BitVec 16) : Console :=
  { cursor := cursor, cells := cells, stores := [], emitted := [] }

def store (value : BitVec 16) (s : Console) : Console :=
  { s with
    cursor := s.cursor + 2
    cells := Function.update s.cells s.cursor value
    stores := s.stores ++ [(s.cursor, value)] }

-- `(cursor - CONSOLE_BEGIN) % 80`.
def column (cursor : BitVec 32) : Int := ((cursor - consoleBegin).toInt.tdiv 2).tmod 80

def putc (c : Byte) (color : BitVec 32) (s : Console) : Console :=
  let s := if consoleEnd ≤ s.cursor then { s with cursor := consoleBegin } else s
  let s :=
    if c = chr '\n' then (store (glyph (chr ' ') color))^[(80 - column s.cursor).toNat] s
    else s.store (glyph c color)
  { s with emitted := s.emitted ++ [(c, color)] }

end Console

def terminalEvent (c : Byte × BitVec 32) : Terminal.Event (BitVec 16) :=
  if c.1 = chr '\n' then .newline (glyph (chr ' ') c.2) else .put (glyph c.1 c.2)

theorem cell_inj {i j : Nat} (iBound : i ≤ 2000) (jBound : j ≤ 2000) (same : cell i = cell j) :
    i = j := by
  rcases Nat.lt_trichotomy i j with less | equal | more
  · exact absurd same (cell_ne less jBound)
  · exact equal
  · exact absurd same.symm (cell_ne more iBound)

theorem column_cell {o : Nat} (bound : o < 2000) : Console.column (cell o) = (o % 80 : Nat) := by
  have offset : (cell o - consoleBegin).toInt = 2 * (o : Int) := by
    unfold cell consoleBegin
    rw [BitVec.toInt_eq_toNat_of_lt] <;> bv_omega
  rw [Console.column, offset, Int.tdiv_eq_ediv_of_nonneg (by omega),
    Int.tmod_eq_emod_of_nonneg (by omega)]
  omega

theorem consoleEnd_le {o : Nat} (bound : o ≤ 2000) : consoleEnd ≤ cell o ↔ o = 2000 := by
  unfold consoleEnd cell consoleBegin
  constructor <;> intro at_end <;> bv_omega

structure Console.Shows (memory : BitVec 32 → BitVec 16) (s : Console)
    (t : Terminal.State (BitVec 16)) (o : Nat) : Prop where
  bound : o ≤ 2000
  cursor : s.cursor = cell o
  place : o ≡ t.position [MOD 2000]
  screen : ∀ j, j < 2000 → s.cells (cell j) = t.screen j
  inside : ∀ x ∈ s.stores, ∃ i, i < 2000 ∧ x.1 = cell i
  frame : ∀ a, (∀ i, i < 2000 → a ≠ cell i) → s.cells a = memory a

namespace Console.Shows

variable {memory : BitVec 32 → BitVec 16} {s : Console} {t : Terminal.State (BitVec 16)} {o : Nat}

theorem store (shown : s.Shows memory t o) (room : o < 2000) (value : BitVec 16) :
    (s.store value).Shows memory (Terminal.put 2000 value t) (o + 1) := by
  have here : t.position % 2000 = o := by
    have := shown.place
    rw [Nat.ModEq, Nat.mod_eq_of_lt room] at this
    exact this.symm
  refine ⟨room, ?_, shown.place.add_right 1, fun j bound => ?_, fun x member => ?_,
    fun a away => ?_⟩
  · simp only [Console.store, shown.cursor, cell_succ]
  · simp only [Console.store, Terminal.put, shown.cursor, here]
    by_cases same : j = o
    · rw [same, Function.update_self, Function.update_self]
    · have other : cell j ≠ cell o := fun equal =>
        same (cell_inj bound.le shown.bound equal)
      rw [Function.update_of_ne other, Function.update_of_ne same]
      exact shown.screen j bound
  · simp only [Console.store, List.mem_append, List.mem_singleton] at member
    rcases member with before | rfl
    · exact shown.inside x before
    · exact ⟨o, room, shown.cursor⟩
  · simp only [Console.store, shown.cursor, Function.update_of_ne (away o room)]
    exact shown.frame a away

theorem stores (shown : s.Shows memory t o) (value : BitVec 16) (k : Nat) (room : o + k ≤ 2000) :
    ((Console.store value)^[k] s).Shows memory ((Terminal.put 2000 value)^[k] t) (o + k) := by
  induction k with
  | zero => exact shown
  | succ k ih =>
      rw [Function.iterate_succ_apply', Function.iterate_succ_apply']
      exact (ih (by omega)).store (by omega) value

theorem wrap (shown : s.Shows memory t o) :
    (if consoleEnd ≤ s.cursor then { s with cursor := consoleBegin } else s).Shows memory t
      (t.position % 2000) ∧ t.position % 2000 < 2000 := by
  have less : t.position % 2000 < 2000 := Nat.mod_lt _ (by decide)
  have place := shown.place
  have ended : consoleEnd ≤ s.cursor ↔ o = 2000 := shown.cursor ▸ consoleEnd_le shown.bound
  by_cases full : o = 2000
  · have zero : t.position % 2000 = 0 := by
      rw [full] at place
      exact place.symm
    rw [if_pos (ended.mpr full)]
    exact ⟨⟨less.le, by rw [zero]; rfl, Nat.mod_modEq _ _, shown.screen, shown.inside,
      shown.frame⟩, less⟩
  · have below : o < 2000 := by
      have := shown.bound
      omega
    rw [Nat.ModEq, Nat.mod_eq_of_lt below] at place
    rw [if_neg (mt ended.mp full), ← place]
    exact ⟨shown, below⟩

theorem putc (shown : s.Shows memory t o) (c : Byte) (color : BitVec 32) :
    ∃ o', (s.putc c color).Shows memory
      (Terminal.event 80 2000 t (terminalEvent (c, color))) o' := by
  obtain ⟨wrapped, room⟩ := shown.wrap
  have emit {s : Console} {t : Terminal.State (BitVec 16)} {o : Nat} (shown : s.Shows memory t o)
      (emitted : List (Byte × BitVec 32)) : ({ s with emitted := emitted }).Shows memory t o :=
    ⟨shown.bound, shown.cursor, shown.place, shown.screen, shown.inside, shown.frame⟩
  unfold Console.putc terminalEvent
  simp only
  by_cases newline : c = chr '\n'
  · simp only [if_pos newline, Terminal.event]
    have row := Terminal.row_inside (show 80 ∣ 2000 by decide) (by decide) t.position
    have same : t.position % 2000 % 80 = t.position % 80 := Nat.mod_mod_of_dvd _ (by decide)
    rw [← Terminal.blank_row (by decide) (by decide) (by decide)]
    refine ⟨t.position % 2000 + (80 - t.position % 80), emit ?_ _⟩
    have count : (80 - Console.column (if consoleEnd ≤ s.cursor then
        { s with cursor := consoleBegin } else s).cursor).toNat = 80 - t.position % 80 := by
      rw [wrapped.cursor, column_cell room]
      omega
    rw [count]
    exact wrapped.stores _ _ (by omega)
  · simp only [if_neg newline, Terminal.event]
    exact ⟨t.position % 2000 + 1, emit (wrapped.store room _) _⟩

end Console.Shows

end SchedOS
