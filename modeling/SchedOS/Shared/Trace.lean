import Mathlib.Tactic.Common

set_option autoImplicit false

namespace Trace

variable {σ τ ε : Type}

inductive Run (step : σ → ε → σ → Prop) : σ → List (ε × σ) → σ → Prop where
  | nil (s : σ) : Run step s [] s
  | cons {s next last : σ} {label : ε} {rest : List (ε × σ)}
      (first : step s label next) (tail : Run step next rest last) :
      Run step s ((label, next) :: rest) last

namespace Run

variable {step : σ → ε → σ → Prop} {s t u : σ} {xs ys : List (ε × σ)}

theorem append (first : Run step s xs t) (second : Run step t ys u) : Run step s (xs ++ ys) u := by
  induction first with
  | nil => exact second
  | cons head _ ih => exact .cons head (ih second)

theorem snoc (run : Run step s xs t) {label : ε} (last : step t label u) :
    Run step s (xs ++ [(label, u)]) u :=
  run.append (.cons last (.nil u))

theorem split (run : Run step s (xs ++ ys) u) :
    ∃ middle, Run step s xs middle ∧ Run step middle ys u := by
  induction xs generalizing s with
  | nil => exact ⟨s, .nil s, run⟩
  | cons head rest ih =>
      cases run with
      | cons first tail =>
          obtain ⟨middle, left, right⟩ := ih tail
          exact ⟨middle, .cons first left, right⟩

theorem split_snoc {label : ε} {next : σ} (run : Run step s (xs ++ [(label, next)]) u) :
    ∃ middle, Run step s xs middle ∧ step middle label next ∧ next = u := by
  obtain ⟨middle, left, right⟩ := run.split
  cases right with
  | cons first tail => cases tail with | nil => exact ⟨middle, left, first, rfl⟩

theorem ends_with (run : Run step s xs u) (some : xs ≠ []) :
    ∃ before label, xs = before ++ [(label, u)] := by
  rcases List.eq_nil_or_concat xs with rfl | ⟨before, ⟨label, visited⟩, rfl⟩
  · exact absurd rfl some
  · rw [List.concat_eq_append] at run ⊢
    obtain ⟨-, -, -, rfl⟩ := run.split_snoc
    exact ⟨before, label, rfl⟩

theorem upto {label : ε} {visited : σ} (run : Run step s (xs ++ (label, visited) :: ys) u) :
    Run step s (xs ++ [(label, visited)]) visited := by
  obtain ⟨middle, left, right⟩ := run.split
  cases right with
  | cons first _ => exact left.snoc first

theorem prefix_of_mem (run : Run step s xs u) {label : ε} {visited : σ}
    (member : (label, visited) ∈ xs) :
    ∃ before after, xs = before ++ (label, visited) :: after ∧
      Run step s (before ++ [(label, visited)]) visited := by
  obtain ⟨before, after, rfl⟩ := List.append_of_mem member
  exact ⟨before, after, rfl, run.upto⟩

theorem invariant (run : Run step s xs u) (property : σ → Prop) (initial : property s)
    (kept : ∀ a l b, property a → step a l b → property b) : property u := by
  induction run with
  | nil => exact initial
  | cons first _ ih => exact ih (kept _ _ _ initial first)

theorem always (run : Run step s xs u) (property : σ → Prop) (initial : property s)
    (kept : ∀ a l b, property a → step a l b → property b) : ∀ x ∈ xs, property x.2 := by
  rintro ⟨label, visited⟩ member
  obtain ⟨before, after, rfl, reached⟩ := run.prefix_of_mem member
  exact reached.invariant property initial kept

theorem history (run : Run step s xs u) (property : List ε → σ → Prop) (initial : property [] s)
    (kept : ∀ past a l b, property past a → step a l b → property (past ++ [l]) b) :
    property (xs.map Prod.fst) u := by
  have general (past : List ε) (start : property past s) :
      property (past ++ xs.map Prod.fst) u := by
    clear initial
    induction run generalizing past with
    | nil => simpa using start
    | cons first _ ih => simpa using ih (past ++ [_]) (kept _ _ _ _ start first)
  simpa using general [] initial

-- A property that every step demands of the state before it, if the state after has it, holds all
-- along a run that ends in it.
theorem backward (run : Run step s xs u) (property : σ → Prop) (final : property u)
    (needed : ∀ a l b, step a l b → property b → property a) :
    property s ∧ ∀ x ∈ xs, property x.2 := by
  induction run with
  | nil => exact ⟨final, by simp⟩
  | cons first _ ih =>
      obtain ⟨next, rest⟩ := ih final
      exact ⟨needed _ _ _ first next, List.forall_mem_cons.mpr ⟨next, rest⟩⟩

theorem final (run : Run step s xs u) (property : σ → Prop) (initial : property s)
    (all : ∀ x ∈ xs, property x.2) : property u := by
  induction run with
  | nil => exact initial
  | cons _ _ ih =>
      obtain ⟨next, rest⟩ := List.forall_mem_cons.mp all
      exact ih next rest

theorem along (run : Run step s xs u) (property : σ → Prop) (initial : property s)
    (all : ∀ x ∈ xs, property x.2) : Run (fun a l b => step a l b ∧ property a) s xs u := by
  induction run with
  | nil s => exact .nil s
  | cons first _ ih =>
      obtain ⟨next, rest⟩ := List.forall_mem_cons.mp all
      exact .cons ⟨first, initial⟩ (ih next rest)

end Run

end Trace
