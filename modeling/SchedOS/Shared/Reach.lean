import Mathlib.Data.Nat.Init
import Mathlib.Logic.Relation
import Mathlib.Order.Lattice.Nat
import Mathlib.Tactic.Common

set_option autoImplicit false

namespace Reach

open Relation

variable {σ : Type} {step : σ → σ → Prop}

theorem invariant {s t : σ} (reaches : ReflTransGen step s t) (property : σ → Prop)
    (initial : property s) (kept : ∀ a b, property a → step a b → property b) : property t := by
  induction reaches with
  | refl => exact initial
  | tail _ last ih => exact kept _ _ ih last

theorem of_rank {property goal : σ → Prop} (rank : σ → Nat)
    (progress : ∀ s, property s → goal s ∨ ∃ t, step s t ∧ property t ∧ rank t < rank s) {s : σ}
    (initial : property s) : ∃ t, ReflTransGen step s t ∧ property t ∧ goal t := by
  have within (bound : Nat) : ∀ a, rank a < bound → property a →
      ∃ t, ReflTransGen step a t ∧ property t ∧ goal t := by
    induction bound with
    | zero => intro a less; omega
    | succ bound ih =>
        intro a less holds
        rcases progress a holds with done | ⟨next, first, kept, lower⟩
        · exact ⟨a, .refl, holds, done⟩
        · obtain ⟨t, rest, final⟩ := ih next (by omega) kept
          exact ⟨t, .head first rest, final⟩
  exact within _ s (Nat.lt_succ_self _) initial

section Infinite

variable (rank : Nat → Nat) {start : Nat}

theorem settles (kept : ∀ i, start ≤ i → rank (i + 1) ≤ rank i) :
    ∃ settled, start ≤ settled ∧ ∀ i, settled ≤ i → rank i = rank settled := by
  induction value : rank start using Nat.strongRecOn generalizing start with
  | ind value lower =>
      have below (i : Nat) (later : start ≤ i) : rank i ≤ rank start := by
        induction i, later using Nat.le_induction with
        | base => exact Nat.le_refl _
        | succ i later ih => exact Nat.le_trans (kept i later) ih
      by_cases drops : ∃ i, start ≤ i ∧ rank i < rank start
      · obtain ⟨i, later, drops⟩ := drops
        obtain ⟨settled, from_i, same⟩ := lower (rank i) (value ▸ drops)
          (fun j after => kept j (Nat.le_trans later after)) rfl
        exact ⟨settled, Nat.le_trans later from_i, same⟩
      · refine ⟨start, Nat.le_refl _, fun i later => Nat.le_antisymm (below i later) ?_⟩
        exact Nat.le_of_not_lt fun less => drops ⟨i, later, less⟩

theorem not_drops (kept : ∀ i, start ≤ i → rank (i + 1) ≤ rank i) :
    ¬ ∀ i, ∃ j, i ≤ j ∧ rank (j + 1) < rank j := by
  intro drops
  obtain ⟨settled, -, same⟩ := settles rank kept
  obtain ⟨j, later, less⟩ := drops settled
  rw [same j later, same (j + 1) (Nat.le_succ_of_le later)] at less
  exact Nat.lt_irrefl _ less

end Infinite

section Waiting

variable {happens : Nat → Prop}

noncomputable def firstTime (happens : Nat → Prop) : Nat := sInf {time | happens time}

theorem firstTime_later (some : ∃ time, happens time) {n : Nat}
    (notYet : ∀ time, time ≤ n → ¬ happens time) :
    firstTime (fun time => happens (time + (n + 1))) < firstTime happens := by
  have first : happens (firstTime happens) := Nat.sInf_mem some
  have after : n < firstTime happens :=
    Nat.lt_of_not_le fun early => notYet _ early first
  have same : firstTime happens - (n + 1) + (n + 1) = firstTime happens := by omega
  have sooner : firstTime (fun time => happens (time + (n + 1))) ≤
      firstTime happens - (n + 1) := by
    apply Nat.sInf_le
    show happens (firstTime happens - (n + 1) + (n + 1))
    rwa [same]
  omega

end Waiting

end Reach
