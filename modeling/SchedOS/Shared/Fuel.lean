import SchedOS.Shared.Loop

set_option autoImplicit false

namespace Fuel

variable {σ τ ε ρ α β : Type}

def Ends (x : Nat → StateT σ (ExceptT ε Option) α) (s : σ) (result : Except ε (α × σ)) : Prop :=
  ∃ enough, ∀ fuel, enough ≤ fuel → x fuel s = some result

section Sequence

variable {x : StateT σ (ExceptT ε Option) α} {f : α → StateT σ (ExceptT ε Option) β} {s s' : σ}
  {a : α}

theorem bind_ok (first : x s = some (.ok (a, s'))) : (x >>= f) s = f a s' := by
  simp only [bind, StateT.bind, ExceptT.bind, ExceptT.mk]
  rw [first]
  rfl

theorem bind_error {e : ε} (first : x s = some (.error e)) : (x >>= f) s = some (.error e) := by
  simp only [bind, StateT.bind, ExceptT.bind, ExceptT.mk]
  rw [first]
  rfl

theorem bind_eq_ok {b : β} (ended : (x >>= f) s = some (.ok (b, s'))) :
    ∃ a middle, x s = some (.ok (a, middle)) ∧ f a middle = some (.ok (b, s')) := by
  simp only [bind, StateT.bind, ExceptT.bind, ExceptT.mk] at ended
  cases first : x s with
  | none =>
      rw [first] at ended
      cases ended
  | some result =>
      rw [first] at ended
      cases result with
      | error _ => cases ended
      | ok pair => exact ⟨pair.1, pair.2, rfl, ended⟩

theorem bind_eq_some {result : Except ε (β × σ)} (ended : (x >>= f) s = some result) :
    (∃ e, x s = some (.error e) ∧ result = .error e) ∨
      ∃ a middle, x s = some (.ok (a, middle)) ∧ f a middle = some result := by
  cases first : x s with
  | none =>
      simp only [bind, StateT.bind, ExceptT.bind, ExceptT.mk] at ended
      rw [first] at ended
      cases ended
  | some middle =>
      cases middle with
      | error e =>
          rw [bind_error first] at ended
          exact .inl ⟨e, rfl, (Option.some.inj ended).symm⟩
      | ok pair =>
          rw [bind_ok first] at ended
          exact .inr ⟨pair.1, pair.2, rfl, ended⟩

theorem bind_eq_error {e : ε} (ended : (x >>= f) s = some (.error e)) :
    x s = some (.error e) ∨
      ∃ a middle, x s = some (.ok (a, middle)) ∧ f a middle = some (.error e) := by
  rcases bind_eq_some ended with ⟨e', stopped, same⟩ | rest
  · cases same
    exact .inl stopped
  · exact .inr rest

theorem pure_eq_ok {b : α}
    (ended : (pure a : StateT σ (ExceptT ε Option) α) s = some (.ok (b, s'))) : b = a ∧ s' = s := by
  cases ended
  exact ⟨rfl, rfl⟩

end Sequence

variable {x y : Nat → StateT σ (ExceptT ε Option) α} {f : Nat → α → StateT σ (ExceptT ε Option) β}
  {s s' : σ} {a : α}

theorem Ends.some_fuel {result : Except ε (α × σ)} (ended : Ends x s result) :
    ∃ fuel, x fuel s = some result := by
  obtain ⟨enough, ended⟩ := ended
  exact ⟨enough, ended enough (Nat.le_refl enough)⟩

theorem Ends.of_eq {result : Except ε (α × σ)} (ended : Ends y s result)
    (same : ∀ fuel, x fuel = y fuel) : Ends x s result := by
  rw [funext same]
  exact ended

theorem ends_const {x : StateT σ (ExceptT ε Option) α} {result : Except ε (α × σ)}
    (ended : x s = some result) : Ends (fun _ => x) s result :=
  ⟨0, fun _ _ => ended⟩

theorem Ends.bind {result : Except ε (β × σ)} (first : Ends x s (.ok (a, s')))
    (rest : Ends (fun fuel => f fuel a) s' result) :
    Ends (fun fuel => x fuel >>= f fuel) s result := by
  obtain ⟨m, first⟩ := first
  obtain ⟨n, rest⟩ := rest
  refine ⟨max m n, fun fuel enough => ?_⟩
  have firstEnough := Nat.le_trans (Nat.le_max_left m n) enough
  have restEnough := Nat.le_trans (Nat.le_max_right m n) enough
  exact (bind_ok (first fuel firstEnough)).trans (rest fuel restEnough)

theorem Ends.bind_error {e : ε} (first : Ends x s (.error e)) :
    Ends (fun fuel => x fuel >>= f fuel) s (.error e) := by
  obtain ⟨enough, first⟩ := first
  exact ⟨enough, fun fuel more => Fuel.bind_error (first fuel more)⟩

def Stops (x : Nat → StateT σ (ExceptT ε Option) α) : Prop := ∀ s, ∃ result, Ends x s result

theorem stops_pure (a : α) : Stops fun _ => (pure a : StateT σ (ExceptT ε Option) α) :=
  fun _ => ⟨_, ends_const rfl⟩

theorem Stops.bind (first : Stops x) (rest : ∀ a, Stops fun fuel => f fuel a) :
    Stops fun fuel => x fuel >>= f fuel := by
  intro s
  obtain ⟨result, ended⟩ := first s
  cases result with
  | error e => exact ⟨_, ended.bind_error⟩
  | ok pair =>
      obtain ⟨result, last⟩ := rest pair.1 pair.2
      exact ⟨result, ended.bind last⟩

theorem Stops.of_eq (stops : Stops y) (same : ∀ fuel, x fuel = y fuel) : Stops x := by
  rw [funext same]
  exact stops

theorem ends_of_leaves {body : τ → Loop.Pass τ ρ} {state : τ} {left : ρ}
    {give : ρ → Except ε (α × σ)} (loop : ∀ fuel, x fuel s = (Loop.run body fuel state).map give)
    (leaves : Loop.Leaves body state left) : Ends x s (give left) := by
  obtain ⟨enough, ended⟩ := leaves
  refine ⟨enough, fun fuel more => ?_⟩
  rw [loop fuel, Loop.run_mono more state left ended]
  rfl

end Fuel
