import Mathlib.Data.Nat.Notation
import Mathlib.Tactic.Common

set_option autoImplicit false

namespace Loop

variable {σ τ ρ : Type}

-- What one pass does: go round again, or leave the loop with a result.
inductive Pass (σ ρ : Type) where
  | again (state : σ)
  | leave (result : ρ)

def run (body : σ → Pass σ ρ) : Nat → σ → Option ρ
  | 0, _ => none
  | fuel + 1, state =>
      match body state with
      | .again next => run body fuel next
      | .leave result => some result

def Leaves (body : σ → Pass σ ρ) (state : σ) (result : ρ) : Prop :=
  ∃ fuel, run body fuel state = some result

theorem run_again {body : σ → Pass σ ρ} {state next : σ} (pass : body state = .again next)
    (fuel : Nat) : run body (fuel + 1) state = run body fuel next := by
  simp [run, pass]

theorem run_leave {body : σ → Pass σ ρ} {state : σ} {result : ρ}
    (pass : body state = .leave result) (fuel : Nat) :
    run body (fuel + 1) state = some result := by
  simp [run, pass]

theorem leaves_leave {body : σ → Pass σ ρ} {state : σ} {result other : ρ}
    (pass : body state = .leave result) : Leaves body state other ↔ other = result := by
  constructor
  · rintro ⟨fuel, ended⟩
    cases fuel with
    | zero => simp [run] at ended
    | succ fuel => rw [run_leave pass] at ended; exact (Option.some.inj ended).symm
  · rintro rfl
    exact ⟨1, run_leave pass 0⟩

theorem Leaves.again {body : σ → Pass σ ρ} {state next : σ} {result : ρ}
    (pass : body state = .again next) (ended : Leaves body next result) :
    Leaves body state result := by
  obtain ⟨fuel, ended⟩ := ended
  exact ⟨fuel + 1, (run_again pass fuel).trans ended⟩

theorem leaves_again {body : σ → Pass σ ρ} {state next : σ} {result : ρ}
    (pass : body state = .again next) : Leaves body state result ↔ Leaves body next result := by
  refine ⟨?_, Leaves.again pass⟩
  rintro ⟨fuel, ended⟩
  cases fuel with
  | zero => simp [run] at ended
  | succ fuel => exact ⟨fuel, (run_again pass fuel).symm.trans ended⟩

theorem run_mono {body : σ → Pass σ ρ} {fuel more : Nat} (le : fuel ≤ more) (state : σ)
    (result : ρ) (ended : run body fuel state = some result) :
    run body more state = some result := by
  induction fuel generalizing more state with
  | zero => simp [run] at ended
  | succ fuel ih =>
      obtain ⟨more, rfl⟩ : ∃ rest, more = rest + 1 := ⟨more - 1, by omega⟩
      cases pass : body state with
      | again next =>
          rw [run_again pass] at ended ⊢
          exact ih (by omega) next ended
      | leave final => rwa [run_leave pass] at ended ⊢

theorem Leaves.unique {body : σ → Pass σ ρ} {state : σ} {first second : ρ}
    (left : Leaves body state first) (right : Leaves body state second) : first = second := by
  obtain ⟨m, left⟩ := left
  obtain ⟨n, right⟩ := right
  have := run_mono (Nat.le_max_left m n) state first left
  rw [run_mono (Nat.le_max_right m n) state second right] at this
  exact (Option.some.inj this).symm

theorem Leaves.post {body : σ → Pass σ ρ} {state : σ} {result : ρ} (invariant : σ → Prop)
    (post : ρ → Prop) (ended : Leaves body state result) (initial : invariant state)
    (again : ∀ s next, invariant s → body s = .again next → invariant next)
    (leave : ∀ s final, invariant s → body s = .leave final → post final) : post result := by
  obtain ⟨fuel, ended⟩ := ended
  induction fuel generalizing state with
  | zero => simp [run] at ended
  | succ fuel ih =>
      cases pass : body state with
      | again next =>
          rw [run_again pass] at ended
          exact ih (again state next initial pass) ended
      | leave final =>
          rw [run_leave pass] at ended
          exact Option.some.inj ended ▸ leave state final initial pass

theorem ends_within (body : σ → Pass σ ρ) (invariant : σ → Prop) (measure : σ → Nat)
    (again : ∀ s next, invariant s → body s = .again next →
      invariant next ∧ measure next < measure s)
    {state : σ} (initial : invariant state) {bound : Nat} (small : measure state < bound) :
    ∃ result, run body bound state = some result := by
  induction bound generalizing state with
  | zero => omega
  | succ bound ih =>
      cases pass : body state with
      | again next =>
          obtain ⟨kept, lower⟩ := again state next initial pass
          rw [run_again pass]
          exact ih kept (by omega)
      | leave final => exact ⟨final, run_leave pass bound⟩

theorem leaves_of_measures {body : σ → Pass σ ρ} (first second : σ → Nat)
    (again : ∀ s next, body s = .again next →
      first next < first s ∨ first next = first s ∧ second next < second s) (state : σ) :
    ∃ result, Leaves body state result := by
  have order := InvImage.wf (fun s => (first s, second s)) (Prod.lex Nat.lt_wfRel Nat.lt_wfRel).wf
  induction state using order.induction with
  | h state ih =>
      cases pass : body state with
      | again next =>
          have less : Prod.Lex (· < ·) (· < ·) (first next, second next)
              (first state, second state) := Prod.lex_def.mpr (again state next pass)
          obtain ⟨result, ended⟩ := ih next less
          exact ⟨result, ended.again pass⟩
      | leave final => exact ⟨final, 1, run_leave pass 0⟩

theorem never_leaves {body : σ → Pass σ ρ} (invariant : σ → Prop)
    (again : ∀ s, invariant s → ∃ next, body s = .again next ∧ invariant next)
    {state : σ} (initial : invariant state) (result : ρ) : ¬ Leaves body state result := by
  rintro ⟨fuel, ended⟩
  induction fuel generalizing state with
  | zero => simp [run] at ended
  | succ fuel ih =>
      obtain ⟨next, pass, kept⟩ := again state initial
      rw [run_again pass] at ended
      exact ih kept ended

theorem run_congr {first : σ → Pass σ ρ} {second : τ → Pass τ ρ} (related : σ → τ → Prop)
    (pass : ∀ s t, related s t →
      (∃ s' t', first s = .again s' ∧ second t = .again t' ∧ related s' t') ∨
      ∃ result, first s = .leave result ∧ second t = .leave result)
    {s : σ} {t : τ} (initial : related s t) (fuel : Nat) :
    run first fuel s = run second fuel t := by
  induction fuel generalizing s t with
  | zero => rfl
  | succ fuel ih =>
      rcases pass s t initial with ⟨s', t', left, right, kept⟩ | ⟨result, left, right⟩
      · rw [run_again left, run_again right]
        exact ih kept
      · rw [run_leave left, run_leave right]

end Loop
