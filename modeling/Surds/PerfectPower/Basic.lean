import Surds.Scalar.Root

/-!
# Perfect powers

A natural number is a perfect power when it is `r ^ k` with `k` at least two; zero and one are.
The primes below `trialLimit` are divided out first. What is left has only prime factors of at
least `2 ^ trialBits`, so its degree is at most its bit length divided by `trialBits`, and only
prime degrees that divide the common multiplicity of the small primes need a root.

Before a root is taken, a number is tried as a residue. A `k`-th power that a prime `m = 1 (mod k)`
does not divide is a `k`-th power residue modulo `m`: its power of exponent `(m - 1) / k` is one.
`mayBePower x k` checks this for the first few such primes, so that most numbers that are no `k`-th
powers are recognised without a root being taken. The answer false is certain, the answer true is
not.

A fraction in lowest terms is a perfect power when the product of its parts is one.
-/

namespace Surds

/-! ## Primality by trial division -/

/-- Whether no number from `d` up to the square root of `k` divides `k`. -/
def hasNoDivisorFrom (k d : Nat) : Bool :=
  if d ≤ k / d then
    if k % d = 0 then false else hasNoDivisorFrom k (d + 1)
  else true
termination_by k + 1 - d
decreasing_by
  have := Nat.div_le_self k d
  omega

/-- Whether `k` is a prime number. -/
def isPrime (k : Nat) : Bool :=
  2 ≤ k && hasNoDivisorFrom k 2

/-! ## Modular powers

`powMod base exp m` is `base ^ exp` modulo `m`, by squaring and multiplying. The computation is a
run of steps on a `ModularPower`, whose value `result * base ^ exp` modulo `m` no step changes.
For a modulus below `2 ^ 64` no step forms a product of `2 ^ 128` or more. -/

/-- A modular power in progress: `result * base ^ exp` is what is left to compute. -/
structure ModularPower where
  result : Nat
  base : Nat
  exp : Nat

namespace ModularPower

/-- Spend the lowest bit of the exponent. -/
def step (m : Nat) (s : ModularPower) : ModularPower where
  result := if s.exp % 2 = 1 then s.result * s.base % m else s.result
  base := s.base * s.base % m
  exp := s.exp / 2

/-- Step until the exponent is spent. -/
def run (m : Nat) (s : ModularPower) : Nat :=
  if s.exp = 0 then s.result else run m (s.step m)
termination_by s.exp
decreasing_by
  simp only [step]
  omega

/-- The state before the first step. -/
def start (base exp m : Nat) : ModularPower :=
  ⟨1, base % m, exp⟩

end ModularPower

/-- The power `base ^ exp` modulo `m`, for a modulus of at least two. -/
def powMod (base exp m : Nat) : Nat :=
  (ModularPower.start base exp m).run m

/-! ## The residue filter -/

/-- How many prime moduli are tried before a number is let through. -/
def residueTests : Nat := 8

/-- Moduli stay below this bound, `2 ^ 64`. -/
def modulusBound : Nat := 0x10000000000000000

/-- Whether `x` is zero or a `k`-th power residue modulo the prime `m = 1 (mod k)`. -/
def isPowerResidue (x k m : Nat) : Bool :=
  x % m = 0 || powMod (x % m) ((m - 1) / k) m = 1

/-- Whether `x` passes `tests` more tests, with the prime moduli among `m + k`, `m + 2 * k`, ...
below `modulusBound`. When the moduli run out, it passes. -/
def passesFrom (x k : Nat) (tests m : Nat) : Bool :=
  if tests = 0 then true
  else if 0 < k ∧ m + k < modulusBound then
    if isPrime (m + k) then
      isPowerResidue x k (m + k) && passesFrom x k (tests - 1) (m + k)
    else passesFrom x k tests (m + k)
  else true
termination_by modulusBound - m
decreasing_by all_goals omega

/-- Whether `x` may be a `k`-th power, for a prime `k`. -/
def mayBePower (x k : Nat) : Bool :=
  passesFrom x k residueTests 1

/-! ## The small part of a number

The degree of a perfect power divides the multiplicity of each of its prime factors. `SmallPart`
carries the greatest common divisor of the multiplicities found so far, and `SmallPart.of?` gives up
as soon as it is one. -/

/-- The primes below this bound are divided out. -/
def trialLimit : Nat := 1024

/-- How often `d` divides `x`, and what is left of `x` after that. -/
def divideAll (d x : Nat) : Nat × Nat :=
  if 1 < d ∧ 0 < x ∧ x % d = 0 then
    let (count, rest) := divideAll d (x / d)
    (count + 1, rest)
  else (0, x)
termination_by x
decreasing_by
  rename_i h
  exact Nat.div_lt_self h.2.1 h.1

/-- Chunks stay below this bound, `2 ^ 32`. -/
def chunkBound : Nat := 0x100000000

/-- The largest power of `p` below `chunkBound`, with its exponent, starting from
`power = p ^ exp`. -/
def chunkFrom (p power exp : Nat) : Nat × Nat :=
  if 1 < p ∧ 0 < power ∧ power * p < chunkBound then chunkFrom p (power * p) (exp + 1)
  else (power, exp)
termination_by chunkBound - power
decreasing_by
  have : power * 2 ≤ power * p := Nat.mul_le_mul_left power (by omega)
  omega

/-- The multiplicity of `p` in `x`, and what is left of `x`. Large powers of `p` are divided out
first, as long as they go. -/
def divideOut (p x : Nat) : Nat × Nat :=
  let (chunk, size) := chunkFrom p p 1
  let (chunks, rest) := divideAll chunk x
  let (singles, rest) := divideAll p rest
  (chunks * size + singles, rest)

/-- A number in the course of trial division. -/
structure SmallPart where
  /-- The greatest common divisor of the multiplicities found, zero if no prime was divided out. -/
  multiplicity : Nat
  /-- What is left of the number. -/
  rest : Nat
  deriving DecidableEq

namespace SmallPart

/-- Divide out one prime. There is nothing left to do when the common divisor falls to one. -/
def divide (s : SmallPart) (p : Nat) : Option SmallPart :=
  if s.rest % p = 0 then
    let (count, rest) := divideOut p s.rest
    let common := Nat.gcd s.multiplicity count
    if common = 1 then none else some ⟨common, rest⟩
  else some s

/-- The primes that are divided out, in ascending order. -/
def primes : List Nat :=
  (List.range trialLimit).filter isPrime

/-- The outcome of trial division, or none when the multiplicities have no common divisor. -/
def of? (x : Nat) : Option SmallPart :=
  primes.foldlM divide ⟨0, x⟩

end SmallPart

/-! ## Perfect powers -/

/-- Every prime that is not divided out has more bits than this. -/
def trialBits : Nat := 10

/-- Whether a number whose small part is known is a perfect power of prime degree `k`. -/
def SmallPart.hasDegree (s : SmallPart) (k : Nat) : Bool :=
  isPrime k && (s.multiplicity = 0 || s.multiplicity % k = 0) && mayBePower s.rest k &&
    k ≤ exponentLimit && (exactRoot? k s.rest).isSome

/-- Whether a natural number is some natural number raised to a power of at least two. -/
def isPerfectPower (x : Nat) : Bool :=
  if x ≤ 1 then true
  else
    match SmallPart.of? x with
    | none => false
    | some s => s.rest = 1 || (List.range (s.rest.log2 / trialBits + 1)).any s.hasDegree

/-- Whether the magnitude of a fraction is some fraction raised to a power of at least two. In
lowest terms the answer does not depend on `expected`; a caller that expects it to be false has
the larger part tested first, which settles most cases. -/
def Fraction.isPerfectPower (f : Fraction) (expected : Bool) : Bool :=
  let n := f.num.natAbs
  if n = 0 then true
  else if n = 1 then Surds.isPerfectPower f.den
  else if !expected && !Surds.isPerfectPower (max n f.den) then false
  else Surds.isPerfectPower (n * f.den)

end Surds
