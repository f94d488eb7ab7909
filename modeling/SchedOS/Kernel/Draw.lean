import SchedOS.Kernel.Schedule

set_option autoImplicit false

namespace SchedOS

-- `MODULUS - 1` is 2 * 3 * 3 * 7 * 11 * 31 * 151 * 331.
theorem factors_of_period {q : Nat} (prime : q.Prime) (divides : q ∣ 2147483646) :
    q ∈ [2, 3, 7, 11, 31, 151, 331] := by
  have factored : 2147483646 = [2, 3, 3, 7, 11, 31, 151, 331].prod := rfl
  rw [factored, prime.prime.dvd_prod_iff] at divides
  obtain ⟨factor, member, divides⟩ := divides
  have equal : factor.Prime → q = factor := fun other =>
    (Nat.prime_dvd_prime_iff_eq prime other).mp divides
  fin_cases member <;> simp [equal (by norm_num)]

theorem multiplier_power : (48271 : ZMod 2147483647) ^ 2147483646 = 1 := by
  reduce_mod_char

theorem multiplier_powers {q : Nat} (prime : q.Prime) (divides : q ∣ 2147483646) :
    (48271 : ZMod 2147483647) ^ (2147483646 / q) ≠ 1 := by
  have member := factors_of_period prime divides
  fin_cases member <;> norm_num <;> reduce_mod_char <;> decide

theorem modulus_prime : Nat.Prime 2147483647 :=
  lucas_primality _ 48271 multiplier_power fun _ prime divides => multiplier_powers prime divides

instance modulusFact : Fact (Nat.Prime 2147483647) := ⟨modulus_prime⟩

theorem multiplier_order : orderOf (48271 : ZMod 2147483647) = 2147483647 - 1 :=
  orderOf_eq_of_pow_and_pow_div_prime (by decide) multiplier_power fun _ prime divides =>
    multiplier_powers prime divides

def InPeriod (x : Int) : Prop := 1 ≤ x ∧ x ≤ 2147483646

section Split

variable {factor x : Int}

structure SplitFits (factor x : Int) : Prop where
  remainder : FitsLong (x.tmod (modulus.tdiv factor))
  product : FitsLong (splitProduct factor x)
  quotient : FitsLong (x.tdiv (modulus.tdiv factor))
  correction : FitsLong (splitCorrection factor x)
  difference : FitsLong (splitDifference factor x)
  next : FitsLong (splitNext factor x)

theorem split_eq (factor : Int) (seed : InPeriod x) :
    splitProduct factor x = factor * (x % (modulus / factor)) ∧
      splitCorrection factor x = modulus % factor * (x / (modulus / factor)) := by
  have positive : (0 : Int) ≤ x := by have := seed.1; omega
  have modulusPositive : (0 : Int) ≤ modulus := by decide
  simp only [splitProduct, splitCorrection, Int.tmod_eq_emod_of_nonneg positive,
    Int.tmod_eq_emod_of_nonneg modulusPositive, Int.tdiv_eq_ediv_of_nonneg positive,
    Int.tdiv_eq_ediv_of_nonneg modulusPositive, and_self]

theorem modulus_not_dvd (positive : 0 < factor) (below : factor < modulus) (seed : InPeriod x) :
    ¬ modulus ∣ factor * x := by
  have prime : Prime modulus := Nat.prime_iff_prime_int.mp modulus_prime
  intro divides
  obtain ⟨low, high⟩ := seed
  rcases prime.dvd_or_dvd divides with left | right
  · have := Int.le_of_dvd positive left
    omega
  · have := Int.le_of_dvd (by omega) right
    simp only [modulus] at this
    omega

theorem splitNext_spec (positive : 0 < factor) (below : factor < modulus)
    (small : modulus % factor ≤ modulus / factor) (seed : InPeriod x) :
    InPeriod (splitNext factor x) ∧ splitNext factor x ≡ factor * x [ZMOD modulus] := by
  obtain ⟨product, correction⟩ := split_eq factor seed
  have split : splitDifference factor x = _ := congrArg₂ (· - ·) product correction
  have bound : x < modulus := by have := seed.2; simp only [modulus]; omega
  obtain ⟨low, high, congruent⟩ := Lehmer.split_reduced positive (by decide) small
    (by have := seed.1; omega) bound _ split (modulus_not_dvd positive below seed)
  refine ⟨⟨low, ?_⟩, congruent⟩
  unfold splitNext
  simp only [modulus] at high ⊢
  omega

theorem split_fits (positive : 0 < factor) (below : factor < modulus)
    (small : modulus % factor ≤ modulus / factor) (seed : InPeriod x) : SplitFits factor x := by
  have nonneg : (0 : Int) ≤ x := by have := seed.1; omega
  have range : 0 < x ∧ x < modulus := by
    have := seed.1
    have := seed.2
    simp only [modulus]
    omega
  have quotient := Lehmer.quotient_pos positive (by decide) small
  have most : modulus / factor ≤ modulus := Int.ediv_le_self _ (by decide)
  obtain ⟨productLow, productHigh⟩ := Lehmer.product_bounds (x := x) positive (by decide) small
  obtain ⟨correctionLow, correctionHigh⟩ :=
    Lehmer.correction_bounds positive (by decide) small range.1 range.2
  obtain ⟨product, correction⟩ := split_eq factor seed
  rw [← product] at productLow productHigh
  rw [← correction] at correctionLow correctionHigh
  have remainderLow := Int.emod_nonneg x (ne_of_gt quotient)
  have remainderHigh := Int.emod_lt_of_pos x quotient
  have quotientLow := Int.ediv_nonneg nonneg quotient.le
  have quotientHigh := Int.ediv_le_self (modulus / factor) nonneg
  obtain ⟨nextLow, nextHigh⟩ := (splitNext_spec positive below small seed).1
  have fits {y : Int} (low : -modulus ≤ y) (high : y ≤ modulus) : FitsLong y := by
    simp only [modulus] at low high
    exact ⟨by omega, high⟩
  have modulusNonneg : (0 : Int) ≤ modulus := by decide
  constructor
  · rw [Int.tmod_eq_emod_of_nonneg nonneg, Int.tdiv_eq_ediv_of_nonneg modulusNonneg]
    exact fits (by omega) (by omega)
  · exact fits (by omega) (by omega)
  · rw [Int.tdiv_eq_ediv_of_nonneg nonneg, Int.tdiv_eq_ediv_of_nonneg modulusNonneg]
    exact fits (by omega) (by omega)
  · exact fits (by omega) (by omega)
  · unfold splitDifference
    exact fits (by omega) (by omega)
  · exact ⟨by omega, by omega⟩

end Split

namespace Rngs

variable {g : Rngs}

@[simp] theorem random_state (g : Rngs) : g.random.2.state = splitNext multiplier g.state := by
  simp [random, state]

theorem random_value (g : Rngs) : g.random.1 = (g.random.2.state : Rat) / modulus := by
  simp [random, state]

def after (g : Rngs) (draws : Nat) : Rngs := (fun g => g.random.2)^[draws] g

@[simp] theorem after_zero (g : Rngs) : g.after 0 = g := rfl

theorem after_succ (g : Rngs) (draws : Nat) : g.after (draws + 1) = (g.after draws).random.2 :=
  Function.iterate_succ_apply' _ _ _

theorem after_random (g : Rngs) (draws : Nat) : g.random.2.after draws = g.after (draws + 1) :=
  (Function.iterate_succ_apply _ _ _).symm

theorem random_spec (seed : InPeriod g.state) : InPeriod g.random.2.state ∧
    g.random.2.state ≡ multiplier * g.state [ZMOD modulus] := by
  rw [random_state]
  exact splitNext_spec (by decide) (by decide) (by decide) seed

theorem after_seed (seed : InPeriod g.state) (draws : Nat) : InPeriod (g.after draws).state := by
  induction draws with
  | zero => exact seed
  | succ draws ih =>
      rw [after_succ]
      exact (random_spec ih).1

theorem after_power (seed : InPeriod g.state) (draws : Nat) :
    ((g.after draws).state : ZMod 2147483647) = 48271 ^ draws * g.state := by
  induction draws with
  | zero => simp
  | succ draws ih =>
      have congruent := (random_spec (after_seed seed draws)).2
      have next := (ZMod.intCast_eq_intCast_iff _ _ 2147483647).mpr congruent
      rw [after_succ, next, Int.cast_mul, ih, pow_succ']
      simp only [multiplier]
      push_cast
      ring

theorem after_reaches (seed : InPeriod g.state) {x : Int} (wanted : InPeriod x) :
    ∃ draws, draws < 2147483646 ∧ (g.after (draws + 1)).state = x := by
  have nonzero {y : Int} (inside : InPeriod y) : (y : ZMod 2147483647) ≠ 0 := by
    rw [Ne, ZMod.intCast_zmod_eq_zero_iff_dvd]
    intro divides
    have := Int.le_of_dvd (by have := inside.1; omega) divides
    have := inside.2
    omega
  obtain ⟨draws, positive, most, reached⟩ :=
    Lehmer.reaches multiplier_order (nonzero seed) (nonzero wanted)
  refine ⟨draws - 1, by omega, ?_⟩
  rw [Nat.sub_add_cancel positive]
  rw [← after_power seed, ZMod.intCast_eq_intCast_iff] at reached
  have inside {y : Int} (range : InPeriod y) : y % 2147483647 = y :=
    Int.emod_eq_of_lt (by have := range.1; omega) (by have := range.2; omega)
  have same : _ % _ = _ % _ := reached
  rwa [Nat.cast_ofNat, inside wanted, inside (after_seed seed draws)] at same

end Rngs

theorem truncate_draw {x : Int} (seed : InPeriod x) :
    Kernel.truncate ((x : Rat) / modulus * 10000) = 10000 * x / modulus := by
  have nonneg : (0 : Rat) ≤ (x : Rat) / modulus * 10000 := by
    have : (0 : Rat) ≤ x := by exact_mod_cast (show (0 : Int) ≤ x by have := seed.1; omega)
    have : (0 : Rat) ≤ modulus := by exact_mod_cast (show (0 : Int) ≤ modulus by decide)
    positivity
  have fraction : (x : Rat) / modulus * 10000 = ((10000 * x : Int) : Rat) / (2147483647 : Nat) := by
    simp only [modulus]
    push_cast
    ring
  unfold Kernel.truncate
  rw [Int.tdiv_eq_ediv_of_nonneg (Rat.num_nonneg.mpr nonneg), ← Rat.floor_def, fraction]
  exact Rat.floor_intCast_div_natCast _ _

end SchedOS
