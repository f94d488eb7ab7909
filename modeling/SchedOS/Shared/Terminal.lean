import Mathlib.Data.Nat.ModEq
import Mathlib.Tactic.Common

set_option autoImplicit false

namespace Terminal

variable {α : Type}

structure State (α : Type) where
  position : Nat
  screen : Nat → α

inductive Event (α : Type) where
  | put (value : α)
  | newline (blank : α)

section Operations

variable (columns size : Nat)

def put (value : α) (t : State α) : State α :=
  { position := t.position + 1
    screen := Function.update t.screen (t.position % size) value }

def newline (blank : α) (t : State α) : State α :=
  { position := (t.position / columns + 1) * columns
    screen := fun j =>
      if t.position % size ≤ j ∧ j < (t.position % size / columns + 1) * columns then blank
      else t.screen j }

def event (t : State α) : Event α → State α
  | .put value => put size value t
  | .newline blank => newline columns size blank t

def run (events : List (Event α)) (t : State α) : State α := events.foldl (event columns size) t

end Operations

variable {columns size : Nat}

theorem row_inside (rows : columns ∣ size) (positive : 0 < size) (position : Nat) :
    (position % size / columns + 1) * columns ≤ size := by
  obtain ⟨n, rfl⟩ := rows
  have less := Nat.mod_lt position positive
  have row : position % (columns * n) / columns < n :=
    Nat.div_lt_of_lt_mul less
  calc (position % (columns * n) / columns + 1) * columns
      ≤ n * columns := Nat.mul_le_mul_right columns row
    _ = columns * n := Nat.mul_comm n columns

theorem blank_row (rows : columns ∣ size) (wide : 0 < columns) (positive : 0 < size) (blank : α)
    (t : State α) : (put size blank)^[columns - t.position % columns] t =
      newline columns size blank t := by
  have column := Nat.mod_lt t.position wide
  have split := Nat.div_add_mod t.position columns
  have shown : t.position % size % columns = t.position % columns := Nat.mod_mod_of_dvd _ rows
  have splitShown := Nat.div_add_mod (t.position % size) columns
  have inside := row_inside rows positive t.position
  rw [Nat.succ_mul, Nat.mul_comm] at inside
  -- Over the cells done so far; none of them leaves the row, so no position wraps.
  have steps (k : Nat) (most : k ≤ columns - t.position % columns) :
      (put size blank)^[k] t =
        { position := t.position + k
          screen := fun j =>
            if t.position % size ≤ j ∧ j < t.position % size + k then blank else t.screen j } := by
    induction k with
    | zero =>
        have none (j : Nat) : ¬ (t.position % size ≤ j ∧ j < t.position % size + 0) := by omega
        simp only [none, if_false]
        rfl
    | succ k ih =>
        have here : (t.position + k) % size = t.position % size + k := by
          rw [Nat.add_mod, Nat.mod_eq_of_lt (show k < size by omega),
            Nat.mod_eq_of_lt (show t.position % size + k < size by omega)]
        rw [Function.iterate_succ_apply', ih (by omega), put]
        simp only [here, State.mk.injEq]
        refine ⟨by omega, ?_⟩
        funext j
        by_cases same : j = t.position % size + k
        · rw [same, Function.update_self, if_pos (by omega)]
        · rw [Function.update_of_ne same]
          exact if_congr (by omega) rfl rfl
  rw [steps _ le_rfl, newline, State.mk.injEq]
  refine ⟨by rw [Nat.succ_mul, Nat.mul_comm]; omega, ?_⟩
  funext j
  refine if_congr ?_ rfl rfl
  rw [Nat.succ_mul, Nat.mul_comm]
  omega

end Terminal
