import SchedOS.Kernel.Draw

set_option autoImplicit false

namespace SchedOS

namespace Rngs

-- `SelectStream`. No stream but the default one is used before the seeds are planted.
def selectStream (index : BitVec 32) (g : Rngs) : Rngs :=
  let g := { g with stream := index.toNat % streams }
  if g.initialized = false ∧ g.stream ≠ 0 then g.plantSeeds defaultSeed else g

def getSeed (g : Rngs) : Int := g.state

def check : Int := 399268537

def testRandom (g : Rngs) : Bool × Rngs :=
  let g := g.selectStream 0
  let g := g.putSeed 1
  let g := g.after 10000
  let ok := g.getSeed == check
  let g := g.selectStream 1
  let g := g.plantSeeds 1
  (ok && g.getSeed == a256, g)

inductive Call where
  | random
  | getSeed
  | selectStream (index : BitVec 32)
  | putSeed (x : Int)
  | plantSeeds (x : Int)
  | testRandom

structure Drawn where
  stream : Nat
  value : Rat

def call (g : Rngs) : Call → List Drawn × Rngs
  | .random => ([⟨g.stream, g.random.1⟩], g.random.2)
  | .getSeed => ([], g)
  | .selectStream index => ([], g.selectStream index)
  | .putSeed x => ([], g.putSeed x)
  | .plantSeeds x => ([], g.plantSeeds x)
  | .testRandom => ([], g.testRandom.2)

def calls : List Call → Rngs → List Drawn × Rngs
  | [], g => ([], g)
  | first :: rest, g =>
      let (drawn, g) := g.call first
      let (more, g) := g.calls rest
      (drawn ++ more, g)

@[simp] theorem calls_nil (g : Rngs) : g.calls [] = ([], g) := rfl

theorem calls_cons (g : Rngs) (first : Call) (rest : List Call) :
    g.calls (first :: rest) =
      ((g.call first).1 ++ ((g.call first).2.calls rest).1, ((g.call first).2.calls rest).2) := rfl

theorem calls_random (g : Rngs) (rest : List Call) :
    g.calls (.random :: rest) =
      (⟨g.stream, g.random.1⟩ :: (g.random.2.calls rest).1, (g.random.2.calls rest).2) := rfl

theorem calls_length (g : Rngs) (calls : List Call) :
    (g.calls calls).1.length ≤ calls.length := by
  induction calls generalizing g with
  | nil => simp
  | cons first rest ih =>
      have later := ih (g.call first).2
      have here : (g.call first).1.length ≤ 1 := by cases first <;> simp [call]
      rw [calls_cons, List.length_append, List.length_cons]
      omega

def Call.Draws : Call → Prop
  | .random | .getSeed | .selectStream _ => True
  | .putSeed _ | .plantSeeds _ | .testRandom => False

end Rngs

section Plant

variable (g : Rngs)

theorem putSeed_state (x : Int) : InPeriod (g.putSeed x).state := by
  have range : x > 0 → 0 ≤ x.tmod modulus ∧ x.tmod modulus < modulus := fun positive =>
    ⟨Int.tmod_nonneg _ positive.le, Int.tmod_lt_of_pos _ (by decide)⟩
  have fallback : (10086 : Int).tmod modulus = 10086 := by decide
  simp only [Rngs.putSeed, Rngs.state, Function.update_self, fallback, InPeriod]
  rcases lt_trichotomy x 0 with negative | zero | positive
  · simp [negative, not_lt.mpr negative.le]
  · simp [zero]
  · obtain ⟨low, high⟩ := range positive
    simp only [modulus] at low high
    simp only [positive, if_true, modulus]
    split_ifs <;> omega

theorem plantNext_rounds (rounds : Nat) :
    ((List.range' 1 rounds).foldl Rngs.plantNext g).stream = g.stream ∧
      ((List.range' 1 rounds).foldl Rngs.plantNext g).initialized = g.initialized ∧
      ((List.range' 1 rounds).foldl Rngs.plantNext g).seed 0 = g.seed 0 ∧
      ∀ j, j < rounds → ((List.range' 1 rounds).foldl Rngs.plantNext g).seed (j + 1) =
        splitNext a256 (((List.range' 1 rounds).foldl Rngs.plantNext g).seed j) := by
  induction rounds with
  | zero => exact ⟨rfl, rfl, rfl, fun j less => absurd less (Nat.not_lt_zero j)⟩
  | succ rounds ih =>
      obtain ⟨stream, planted, first, seeds⟩ := ih
      rw [List.range'_1_concat, List.foldl_concat]
      generalize (List.range' 1 rounds).foldl Rngs.plantNext g = before at *
      refine ⟨stream, planted, ?_, fun j less => ?_⟩
      · rw [← first]
        exact Function.update_of_ne (by omega) _ _
      · simp only [Rngs.plantNext, Nat.add_sub_cancel_left]
        rcases Nat.lt_or_ge j rounds with earlier | last
        · rw [Function.update_of_ne (by omega), Function.update_of_ne (by omega)]
          exact seeds j earlier
        · obtain rfl : j = rounds := by omega
          rw [Nat.add_comm 1 j, Function.update_self, Function.update_of_ne (by omega)]

theorem plantSeeds_spec (x : Int) :
    (g.plantSeeds x).stream = g.stream ∧ (g.plantSeeds x).initialized = true ∧
      (g.plantSeeds x).seed 0 = (Rngs.putSeed x { g with stream := 0, initialized := true }).state ∧
      ∀ j, j + 1 < streams →
        (g.plantSeeds x).seed (j + 1) = splitNext a256 ((g.plantSeeds x).seed j) := by
  obtain ⟨stream, planted, first, seeds⟩ := plantNext_rounds
    { Rngs.putSeed x { g with stream := 0, initialized := true } with stream := g.stream }
    (streams - 1)
  have below (j : Nat) (less : j + 1 < streams) : j < streams - 1 := by omega
  unfold Rngs.plantSeeds
  generalize streams - 1 = rounds at *
  exact ⟨stream, planted, first, fun j less => seeds j (below j less)⟩

theorem plantSeeds_seeds (x : Int) {j : Nat} (bound : j < streams) :
    InPeriod ((g.plantSeeds x).seed j) := by
  obtain ⟨-, -, first, seeds⟩ := plantSeeds_spec g x
  induction j with
  | zero =>
      rw [first]
      exact putSeed_state _ x
  | succ j ih =>
      rw [seeds j bound]
      exact (splitNext_spec (by decide) (by decide) (by decide) (ih (by omega))).1

end Plant

def streamLength : Nat := 8367782

theorem a256_power : (48271 : ZMod 2147483647) ^ streamLength = 22925 := by
  unfold streamLength
  reduce_mod_char

theorem state_ne_zero {x : Int} (seed : InPeriod x) : (x : ZMod 2147483647) ≠ 0 := by
  rw [Ne, ZMod.intCast_zmod_eq_zero_iff_dvd]
  intro divides
  have := Int.le_of_dvd (by have := seed.1; omega) divides
  have := seed.2
  omega

theorem state_ext {x y : Int} (left : InPeriod x) (right : InPeriod y)
    (same : (x : ZMod 2147483647) = y) : x = y := by
  have inside {z : Int} (range : InPeriod z) : z % 2147483647 = z :=
    Int.emod_eq_of_lt (by have := range.1; omega) (by have := range.2; omega)
  have reduced : _ % _ = _ % _ := (ZMod.intCast_eq_intCast_iff _ _ 2147483647).mp same
  rwa [Nat.cast_ofNat, inside left, inside right] at reduced

theorem plantSeeds_power (g : Rngs) (x : Int) {j : Nat} (bound : j < streams) :
    ((g.plantSeeds x).seed j : ZMod 2147483647) =
      48271 ^ (streamLength * j) * (g.plantSeeds x).seed 0 := by
  obtain ⟨-, -, -, seeds⟩ := plantSeeds_spec g x
  induction j with
  | zero => simp
  | succ j ih =>
      have earlier : j < streams := by omega
      have positive : 0 < a256 := by decide
      have congruent := (splitNext_spec positive (by decide) (by decide)
        (plantSeeds_seeds g x earlier)).2
      rw [← seeds j bound] at congruent
      have next := (ZMod.intCast_eq_intCast_iff _ _ 2147483647).mpr congruent
      rw [next, Int.cast_mul, ih earlier, Nat.mul_succ, pow_add, a256_power]
      simp only [a256]
      push_cast
      ring

/-- Where the streams stand after `counts` draws from each of them: all on one orbit, one stream
length apart. -/
structure Apart (base : ZMod 2147483647) (counts : Nat → Nat) (g : Rngs) : Prop where
  planted : g.initialized = true
  stream : g.stream < streams
  seeds : ∀ j, j < streams → InPeriod (g.seed j) ∧
    (g.seed j : ZMod 2147483647) = 48271 ^ (streamLength * j + counts j) * base

theorem plantSeeds_apart (g : Rngs) (x : Int) (stream : g.stream < streams) :
    Apart ((g.plantSeeds x).seed 0) (fun _ => 0) (g.plantSeeds x) := by
  obtain ⟨same, planted, -, -⟩ := plantSeeds_spec g x
  refine ⟨planted, by rw [same]; exact stream, fun j bound => ⟨plantSeeds_seeds g x bound, ?_⟩⟩
  rw [Nat.add_zero]
  exact plantSeeds_power g x bound

section Calls

variable {base : ZMod 2147483647} {counts : Nat → Nat} {g : Rngs}

theorem Apart.random (apart : Apart base counts g) :
    Apart base (Function.update counts g.stream (counts g.stream + 1)) g.random.2 := by
  refine ⟨apart.planted, apart.stream, fun j bound => ?_⟩
  obtain ⟨seed, power⟩ := apart.seeds j bound
  by_cases same : j = g.stream
  · subst same
    obtain ⟨next, congruent⟩ := Rngs.random_spec seed
    refine ⟨next, ?_⟩
    have value := (ZMod.intCast_eq_intCast_iff _ _ 2147483647).mpr congruent
    change ((g.random.2.state : Int) : ZMod 2147483647) = _
    rw [value, Function.update_self, ← Nat.add_assoc, pow_succ', Int.cast_mul, mul_assoc, ← power]
    rfl
  · have kept : g.random.2.seed j = g.seed j := Function.update_of_ne same _ _
    rw [kept, Function.update_of_ne same]
    exact ⟨seed, power⟩

theorem Apart.selectStream (apart : Apart base counts g) (index : BitVec 32) :
    Apart base counts (g.selectStream index) := by
  simp only [Rngs.selectStream, apart.planted, Bool.true_eq_false, false_and, if_false]
  exact ⟨rfl, Nat.mod_lt _ (by decide), apart.seeds⟩

theorem Apart.following (apart : Apart base (fun _ => 0) g) {j : Nat} (bound : j + 1 < streams) :
    ({ g with stream := j + 1 } : Rngs).state =
      (({ g with stream := j } : Rngs).after streamLength).state := by
  obtain ⟨seed, here⟩ := apart.seeds j (by omega)
  obtain ⟨nextSeed, next⟩ := apart.seeds (j + 1) bound
  have start : InPeriod ({ g with stream := j } : Rngs).state := seed
  apply state_ext nextSeed (Rngs.after_seed start _)
  rw [Rngs.after_power start, next, Nat.mul_succ]
  change _ = 48271 ^ streamLength * (g.seed j : ZMod 2147483647)
  rw [here]
  ring

end Calls

def drawsFrom (stream : Nat) (drawn : List Rngs.Drawn) : Nat :=
  drawn.countP fun draw => draw.stream = stream

@[simp] theorem drawsFrom_nil (stream : Nat) : drawsFrom stream [] = 0 := rfl

theorem drawsFrom_cons (stream : Nat) (draw : Rngs.Drawn) (drawn : List Rngs.Drawn) :
    drawsFrom stream (draw :: drawn) =
      drawsFrom stream drawn + if draw.stream = stream then 1 else 0 := by
  simp [drawsFrom, List.countP_cons]

structure IsNumber (base : ZMod 2147483647) (number : Nat) (draw : Rngs.Drawn) : Prop where
  stream : draw.stream < streams
  value : ∃ x, InPeriod x ∧ draw.value = (x : Rat) / modulus ∧
    (x : ZMod 2147483647) = 48271 ^ (streamLength * draw.stream + number) * base

section Drawn

variable {base : ZMod 2147483647}

theorem IsNumber.apart (seed : base ≠ 0) {m n : Nat} {first second : Rngs.Drawn}
    (left : IsNumber base m first) (right : IsNumber base n second)
    (leftLow : 0 < m) (leftFew : m ≤ streamLength) (rightLow : 0 < n) (rightFew : n ≤ streamLength)
    (same : first.value = second.value) : first.stream = second.stream ∧ m = n := by
  obtain ⟨leftStream, x, -, xValue, xPower⟩ := left
  obtain ⟨rightStream, y, -, yValue, yPower⟩ := right
  have equal : x = y := by
    rw [xValue, yValue, div_left_inj' (by simp [modulus])] at same
    exact_mod_cast same
  rw [equal, yPower] at xPower
  generalize first.stream = i at *
  generalize second.stream = j at *
  simp only [streams, streamLength] at *
  have exponents := Lehmer.powers_apart multiplier_order seed (by omega) (by omega) xPower
  omega

theorem Apart.drawn {counts : Nat → Nat} {g : Rngs} (apart : Apart base counts g) :
    IsNumber base (counts g.stream + 1) ⟨g.stream, g.random.1⟩ := by
  obtain ⟨seed, power⟩ := apart.random.seeds g.stream apart.stream
  rw [Function.update_self] at power
  exact ⟨apart.stream, _, seed, Rngs.random_value g, power⟩

theorem counts_drawn (counts : Nat → Nat) (drawnFrom : Nat) (value : Rat)
    (drawn : List Rngs.Drawn) (stream : Nat) :
    Function.update counts drawnFrom (counts drawnFrom + 1) stream + drawsFrom stream drawn =
      counts stream + drawsFrom stream (⟨drawnFrom, value⟩ :: drawn) := by
  rw [drawsFrom_cons]
  by_cases same : stream = drawnFrom
  · subst same
    rw [Function.update_self, if_pos rfl]
    omega
  · rw [Function.update_of_ne same, if_neg (Ne.symm same), Nat.add_zero]

theorem counts_grow (counts : Nat → Nat) (drawnFrom stream : Nat) :
    counts stream ≤ Function.update counts drawnFrom (counts drawnFrom + 1) stream := by
  by_cases same : stream = drawnFrom
  · subst same
    rw [Function.update_self]
    omega
  · rw [Function.update_of_ne same]

theorem calls_numbers {calls : List Rngs.Call} {counts : Nat → Nat} {g : Rngs}
    (apart : Apart base counts g) (drawing : ∀ call ∈ calls, call.Draws) :
    ∀ draw ∈ (g.calls calls).1, ∃ number, IsNumber base number draw ∧
      counts draw.stream < number ∧
      number ≤ counts draw.stream + drawsFrom draw.stream (g.calls calls).1 := by
  induction calls generalizing counts g with
  | nil => simp
  | cons first rest ih =>
      obtain ⟨draws, restDraws⟩ := List.forall_mem_cons.mp drawing
      cases first with
      | getSeed => exact ih apart restDraws
      | selectStream index => exact ih (apart.selectStream index) restDraws
      | putSeed x | plantSeeds x | testRandom => exact draws.elim
      | random =>
          have later := ih apart.random restDraws
          have total := counts_drawn counts g.stream g.random.1 (g.random.2.calls rest).1
          rw [Rngs.calls_random, List.forall_mem_cons]
          constructor
          · have mine := total g.stream
            rw [Function.update_self] at mine
            exact ⟨_, apart.drawn, Nat.lt_succ_self _, by rw [← mine]; exact Nat.le_add_right _ _⟩
          · intro draw member
            obtain ⟨number, isNumber, low, high⟩ := later draw member
            have grown := counts_grow counts g.stream draw.stream
            exact ⟨number, isNumber, by omega, by rw [← total]; exact high⟩

theorem calls_distinct (seed : base ≠ 0) {calls : List Rngs.Call} {counts : Nat → Nat} {g : Rngs}
    (apart : Apart base counts g) (drawing : ∀ call ∈ calls, call.Draws)
    (few : ∀ stream, counts stream + drawsFrom stream (g.calls calls).1 ≤ streamLength) :
    ((g.calls calls).1.map Rngs.Drawn.value).Nodup := by
  -- The first number is told apart from the later ones by its place in its stream.
  induction calls generalizing counts g with
  | nil => simp
  | cons first rest ih =>
      obtain ⟨draws, restDraws⟩ := List.forall_mem_cons.mp drawing
      cases first with
      | getSeed => exact ih apart restDraws few
      | selectStream index => exact ih (apart.selectStream index) restDraws few
      | putSeed x | plantSeeds x | testRandom => exact draws.elim
      | random =>
          have later := calls_numbers apart.random restDraws
          have total := counts_drawn counts g.stream g.random.1 (g.random.2.calls rest).1
          rw [Rngs.calls_random] at few ⊢
          rw [List.map_cons, List.nodup_cons]
          constructor
          · intro member
            obtain ⟨draw, inside, same⟩ := List.mem_map.mp member
            obtain ⟨number, isNumber, low, high⟩ := later draw inside
            have fewHere := few g.stream
            have fewThere := few draw.stream
            rw [← total] at fewHere fewThere
            rw [Function.update_self] at fewHere
            obtain ⟨stream, place⟩ := isNumber.apart seed apart.drawn (by omega) (by omega)
              (by omega) (by omega) same
            rw [stream, Function.update_self] at low
            omega
          · exact ih apart.random restDraws fun stream => by rw [total]; exact few stream

end Drawn

/-- What every call leaves behind: the current stream has a state, and so has every stream once
the seeds are planted. -/
structure Sound (g : Rngs) : Prop where
  stream : g.stream < streams
  current : InPeriod g.state
  first : InPeriod (g.seed 0)
  seeds : g.initialized = true → ∀ j, j < streams → InPeriod (g.seed j)

section Sound

variable {g : Rngs}

theorem static_sound : Sound Rngs.static := by
  have seed : InPeriod defaultSeed := ⟨by decide, by decide⟩
  exact ⟨by decide, seed, seed, fun planted => Bool.noConfusion planted⟩

theorem Sound.store (sound : Sound g) {x : Int} (seed : InPeriod x) :
    Sound { g with seed := Function.update g.seed g.stream x } := by
  have kept (j : Nat) (was : InPeriod (g.seed j)) :
      InPeriod (Function.update g.seed g.stream x j) := by
    by_cases same : j = g.stream
    · rw [same, Function.update_self]
      exact seed
    · rw [Function.update_of_ne same]
      exact was
  exact ⟨sound.stream, kept _ sound.current, kept _ sound.first, fun planted j bound =>
    kept j (sound.seeds planted j bound)⟩

theorem Sound.random (sound : Sound g) : Sound g.random.2 :=
  sound.store (Rngs.random_state g ▸ (Rngs.random_spec sound.current).1)

theorem Sound.putSeed (sound : Sound g) (x : Int) : Sound (g.putSeed x) := by
  have stored : g.putSeed x =
      { g with seed := Function.update g.seed g.stream (g.putSeed x).state } := by
    simp only [Rngs.putSeed, Rngs.state, Function.update_self]
  rw [stored]
  exact sound.store (putSeed_state g x)

theorem plantSeeds_sound (stream : g.stream < streams) (x : Int) : Sound (g.plantSeeds x) := by
  obtain ⟨same, -, -, -⟩ := plantSeeds_spec g x
  refine ⟨by rw [same]; exact stream, ?_, plantSeeds_seeds g x (by decide),
    fun _ _ => plantSeeds_seeds g x⟩
  rw [Rngs.state, same]
  exact plantSeeds_seeds g x stream

theorem Sound.selectStream (sound : Sound g) (index : BitVec 32) :
    Sound (g.selectStream index) := by
  have bound : index.toNat % streams < streams := Nat.mod_lt _ (by decide)
  simp only [Rngs.selectStream]
  split_ifs with unplanted
  · exact plantSeeds_sound (g := { g with stream := index.toNat % streams }) bound defaultSeed
  · refine ⟨bound, ?_, sound.first, sound.seeds⟩
    by_cases planted : g.initialized = true
    · exact sound.seeds planted _ bound
    · have zero : index.toNat % streams = 0 := by
        by_contra other
        exact unplanted ⟨Bool.eq_false_iff.mpr planted, other⟩
      simp only [Rngs.state, zero]
      exact sound.first

theorem Sound.after (sound : Sound g) (draws : Nat) : Sound (g.after draws) := by
  induction draws with
  | zero => exact sound
  | succ draws ih =>
      rw [Rngs.after_succ]
      exact ih.random

theorem Sound.testRandom (sound : Sound g) : Sound g.testRandom.2 := by
  have selected := (((sound.selectStream 0).putSeed 1).after 10000).selectStream 1
  simp only [Rngs.testRandom]
  exact plantSeeds_sound selected.stream 1

theorem Sound.calls (sound : Sound g) (calls : List Rngs.Call) : Sound (g.calls calls).2 := by
  induction calls generalizing g with
  | nil => exact sound
  | cons first rest ih =>
      rw [Rngs.calls_cons]
      apply ih
      cases first with
      | random => exact sound.random
      | getSeed => exact sound
      | selectStream index => simp only [Rngs.call]; exact sound.selectStream index
      | putSeed x => simp only [Rngs.call]; exact sound.putSeed x
      | plantSeeds x => simp only [Rngs.call]; exact plantSeeds_sound sound.stream x
      | testRandom => simp only [Rngs.call]; exact sound.testRandom

end Sound

theorem selectStream_stream (g : Rngs) (index : BitVec 32) :
    (g.selectStream index).stream = index.toNat % streams := by
  simp only [Rngs.selectStream]
  split_ifs
  · rw [(plantSeeds_spec _ defaultSeed).1]
  · rfl

theorem putSeed_one (g : Rngs) : (g.putSeed 1).state = 1 := by
  simp only [Rngs.putSeed, Rngs.state, Function.update_self]
  decide

theorem check_draws {g : Rngs} (one : g.state = 1) : (g.after 10000).state = Rngs.check := by
  have seed : InPeriod g.state := one ▸ ⟨by decide, by decide⟩
  have target : InPeriod Rngs.check := ⟨by decide, by decide⟩
  apply state_ext (Rngs.after_seed seed 10000) target
  rw [Rngs.after_power seed, one, Rngs.check]
  push_cast
  reduce_mod_char

theorem testRandom_ok (g : Rngs) : g.testRandom.1 = true := by
  have draws := check_draws (putSeed_one (g.selectStream 0))
  have selected := selectStream_stream
    ((Rngs.putSeed 1 (g.selectStream 0)).after 10000) 1
  simp only [Rngs.testRandom, Rngs.getSeed, draws, beq_self_eq_true, Bool.true_and, beq_iff_eq]
  generalize Rngs.selectStream 1 ((Rngs.putSeed 1 (g.selectStream 0)).after 10000) = g' at *
  obtain ⟨stream, -, first, seeds⟩ := plantSeeds_spec g' 1
  have second := seeds 0 (by decide)
  rw [first, putSeed_one] at second
  have index : (1 : BitVec 32).toNat % streams = 1 := by decide
  rw [Rngs.state, stream, selected, index, second]
  decide

theorem after_returns_iff {g : Rngs} (seed : InPeriod g.state) (draws : Nat) :
    (g.after draws).state = g.state ↔ 2147483646 ∣ draws := by
  have closes := Lehmer.returns_iff multiplier_order (state_ne_zero seed) draws
  rw [← Rngs.after_power seed] at closes
  rw [← closes]
  exact ⟨congrArg _, state_ext (Rngs.after_seed seed draws) seed⟩

theorem random_bounds {g : Rngs} (seed : InPeriod g.state) :
    (1 : Rat) / modulus ≤ g.random.1 ∧ g.random.1 ≤ 1 - 1 / modulus := by
  obtain ⟨low, high⟩ := (Rngs.random_spec seed).1
  have positive : (0 : Rat) < modulus := by simp [modulus]
  have top : (1 : Rat) - 1 / modulus = 2147483646 / modulus := by
    simp only [modulus]
    norm_num
  rw [Rngs.random_value, top]
  constructor
  · exact div_le_div_of_nonneg_right (by exact_mod_cast low) positive.le
  · exact div_le_div_of_nonneg_right (by exact_mod_cast high) positive.le

theorem generator_sound (calls : List Rngs.Call) :
    let g := (Rngs.static.calls calls).2
    SplitFits multiplier g.state ∧
      (∀ x j, j + 1 < 256 → SplitFits a256 ((g.plantSeeds x).seed j)) ∧
      (∀ index, (1 : Rat) / modulus ≤ (g.selectStream index).random.1 ∧
        (g.selectStream index).random.1 ≤ 1 - 1 / modulus) ∧
      (∀ index draws, ((g.selectStream index).after draws).state = (g.selectStream index).state ↔
        2147483646 ∣ draws) ∧
      g.testRandom.1 = true := by
  intro g
  have sound : Sound g := static_sound.calls calls
  refine ⟨?_, fun x j bound => ?_, fun index => ?_, fun index draws => ?_, testRandom_ok g⟩
  · exact split_fits (by decide) (by decide) (by decide) sound.current
  · have seed : InPeriod ((g.plantSeeds x).seed j) :=
      plantSeeds_seeds g x (by unfold streams; omega)
    exact split_fits (by decide) (by decide) (by decide) seed
  · exact random_bounds (sound.selectStream index).current
  · exact after_returns_iff (sound.selectStream index).current draws

/-- In any program that plants seeds and then draws from any streams in any order, at most 8367782
times from each, no number is drawn twice; the streams are exactly that many draws apart. -/
theorem streams_apart (before : List Rngs.Call) (x : Int) (calls : List Rngs.Call)
    (drawing : ∀ call ∈ calls, call.Draws) :
    let g := (Rngs.static.calls before).2.plantSeeds x
    ((∀ stream, drawsFrom stream (g.calls calls).1 ≤ 8367782) →
      ((g.calls calls).1.map Rngs.Drawn.value).Nodup) ∧
    ∀ j, j + 1 < 256 →
      ({ g with stream := j + 1 } : Rngs).state =
        (({ g with stream := j } : Rngs).after 8367782).state := by
  intro g
  have sound : Sound (Rngs.static.calls before).2 := static_sound.calls before
  have apart := plantSeeds_apart _ x sound.stream
  have first : InPeriod (g.seed 0) := plantSeeds_seeds _ x (by decide)
  refine ⟨fun few => ?_, fun j bound => ?_⟩
  · refine calls_distinct (state_ne_zero first) apart drawing fun stream => ?_
    rw [Nat.zero_add]
    exact few stream
  · exact apart.following bound

theorem streams_apart_example : ((((Rngs.static.calls []).2.plantSeeds 1).calls
    [.random, .random, .selectStream 1, .random, .random]).1.map Rngs.Drawn.value).Nodup := by
  refine (streams_apart [] 1 _ ?_).1 fun stream => ?_
  · intro call member
    simp only [List.mem_cons, List.not_mem_nil, or_false] at member
    rcases member with rfl | rfl | rfl | rfl | rfl <;> trivial
  · exact (List.countP_le_length.trans (Rngs.calls_length _ _)).trans (by simp)

end SchedOS
