import Mathlib
import SchedOS.Kernel.Data
import SchedOS.Shared.Lehmer

set_option autoImplicit false

namespace SchedOS

def modulus : Int := 2147483647
def multiplier : Int := 48271
def streams : Nat := 256
def a256 : Int := 22925
def defaultSeed : Int := 123456789

def FitsLong (x : Int) : Prop := -2147483648 ≤ x ∧ x ≤ 2147483647

section Split

variable (factor x : Int)

-- `factor * (x % Q)` for `Q = MODULUS / factor`.
def splitProduct : Int := factor * x.tmod (modulus.tdiv factor)

-- `R * (x / Q)` for `R = MODULUS % factor`.
def splitCorrection : Int := modulus.tmod factor * x.tdiv (modulus.tdiv factor)

def splitDifference : Int := splitProduct factor x - splitCorrection factor x

def splitNext : Int :=
  if splitDifference factor x > 0 then splitDifference factor x
  else splitDifference factor x + modulus

end Split

namespace Rngs

def state (g : Rngs) : Int := g.seed g.stream

/-- `Random`: the value drawn, `seed[stream] / MODULUS`, and the generator after the draw. -/
def random (g : Rngs) : Rat × Rngs :=
  let next := splitNext multiplier g.state
  (next / modulus, { g with seed := Function.update g.seed g.stream next })

def putSeed (x : Int) (g : Rngs) : Rngs :=
  let x := if x > 0 then x.tmod modulus else x
  let x := if x < 0 then (10086 : Int).tmod modulus else x
  let x := if x = 0 then (10086 : Int).tmod modulus else x
  { g with seed := Function.update g.seed g.stream x }

def plantNext (g : Rngs) (j : Nat) : Rngs :=
  { g with seed := Function.update g.seed j (splitNext a256 (g.seed (j - 1))) }

-- `PlantSeeds`. Its `SelectStream(0)` sets `stream` to 0 and plants nothing.
def plantSeeds (x : Int) (g : Rngs) : Rngs :=
  let g := { g with initialized := true }
  let s := g.stream
  let g := putSeed x { g with stream := 0 }
  let g := { g with stream := s }
  (List.range' 1 (streams - 1)).foldl plantNext g

end Rngs

end SchedOS
