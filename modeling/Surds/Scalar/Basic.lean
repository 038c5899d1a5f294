import Surds.Failure

/-!
# Fractions and scalars

A `Fraction` is a pair of an integer above the bar and a natural number below it. Any pair can be
formed; the pair is `Canonical` when it is in lowest terms and is not a whole number, and then it is
the only canonical pair with its value.

A `Scalar` is a rational number of any size: a whole number, or a fraction. Every value has one
canonical representation, since a fraction in lowest terms over one is kept as a whole number; so
equality of scalars is equality of representations.

Some operations take a pair to be in lowest terms without checking it. They are written for all
monads in which such a pair can be noted (`Trusting`), under names that end in `M`, and so are the
operations that use them. In `Id` and in `Except Failure` nothing is noted, which gives the plain
operations: `ofReduced` trusts its caller that the pair is in lowest terms, `reduce` divides by the
greatest common divisor, and `quotient?` accepts any two integers and refuses a zero denominator.
-/

namespace Surds

/-! ## Fractions -/

/-- A number above the bar, which carries the sign, and a number below it. -/
structure Fraction where
  num : Int
  den : Nat
  deriving DecidableEq

namespace Fraction

/-- A fraction is canonical when its denominator exceeds one and shares no factor with its
numerator. -/
def Canonical (f : Fraction) : Prop :=
  1 < f.den ∧ Nat.gcd f.num.natAbs f.den = 1

instance (f : Fraction) : Decidable f.Canonical :=
  inferInstanceAs (Decidable (_ ∧ _))

/-- Whether dividing by the greatest common divisor leaves a fraction as it is, and it is not over
one. -/
def isCanonical (f : Fraction) : Bool :=
  let g := Nat.gcd f.num.natAbs f.den
  f.den ≠ 0 ∧ f.den / g ≠ 1 ∧ f.num / g = f.num ∧ f.den / g = f.den

/-- The fraction of opposite sign. -/
def neg (f : Fraction) : Fraction :=
  ⟨-f.num, f.den⟩

instance : Neg Fraction := ⟨neg⟩

@[simp] theorem num_neg (f : Fraction) : (-f).num = -f.num :=
  rfl

@[simp] theorem den_neg (f : Fraction) : (-f).den = f.den :=
  rfl

end Fraction

/-! ## Trusted pairs -/

/-- A monad in which a pair can be noted that is taken to be in lowest terms. -/
class Trusting (m : Type → Type) where
  trust : Fraction → m Unit

instance : Trusting Id := ⟨fun _ => pure ()⟩

instance : Trusting (Except Failure) := ⟨fun _ => pure ()⟩

section

variable {m : Type → Type} [Monad m] [Trusting m] [MonadLiftT (Except Failure) m]

/-- A fraction that is taken to be in lowest terms. -/
def Fraction.trustedM (f : Fraction) : m Fraction := do
  Trusting.trust f
  return f

/-- A computation that ends with a failure. -/
def failM {α : Type} (w : Failure) : m α :=
  liftM (.error w : Except Failure α)

end

/-! ## Scalars -/

/-- A rational number: an integer, or a fraction. -/
inductive Scalar
  | whole (n : Int)
  | frac (f : Fraction)
  deriving DecidableEq

namespace Scalar

instance : Zero Scalar := ⟨whole 0⟩

instance : One Scalar := ⟨whole 1⟩

/-- The number above the bar. -/
def num : Scalar → Int
  | whole n => n
  | frac f => f.num

/-- The number below the bar, which is one for a whole number. -/
def den : Scalar → Nat
  | whole _ => 1
  | frac f => f.den

@[simp] theorem num_whole (n : Int) : (whole n).num = n :=
  rfl

@[simp] theorem den_whole (n : Int) : (whole n).den = 1 :=
  rfl

@[simp] theorem num_frac (f : Fraction) : (frac f).num = f.num :=
  rfl

@[simp] theorem den_frac (f : Fraction) : (frac f).den = f.den :=
  rfl

/-- The rational number that a scalar stands for. -/
def value (a : Scalar) : Rat :=
  mkRat a.num a.den

/-- A scalar is canonical when it is whole or a canonical fraction. -/
def Canonical : Scalar → Prop
  | whole _ => True
  | frac f => f.Canonical

instance : (a : Scalar) → Decidable a.Canonical
  | whole _ => inferInstanceAs (Decidable True)
  | frac f => inferInstanceAs (Decidable f.Canonical)

/-- A scalar is negative when its numerator is. -/
def isNegative (a : Scalar) : Bool :=
  a.num < 0

/-- The scalar of opposite sign. -/
def neg : Scalar → Scalar
  | whole n => whole (-n)
  | frac f => frac (-f)

instance : Neg Scalar := ⟨neg⟩

/-! ## Construction and arithmetic in any monad -/

section

variable {m : Type → Type} [Monad m] [Trusting m]

/-- The scalar of a pair in lowest terms. Nothing is checked. -/
def ofReducedM (n : Int) (d : Nat) : m Scalar := do
  let f ← Fraction.trustedM ⟨n, d⟩
  return if d = 1 then whole n else frac f

/-- The scalar of a pair with a positive denominator, in lowest terms. -/
def reduceM (n : Int) (d : Nat) : m Scalar :=
  let g := Nat.gcd n.natAbs d
  ofReducedM (n / g) (d / g)

/-- The quotient of two integers, with the sign moved above the bar. -/
def quotientM [MonadLiftT (Except Failure) m] (n d : Int) : m Scalar :=
  if d = 0 then failM .divisionByZero
  else reduceM (if d < 0 then -n else n) d.natAbs

/-- The sum. With a fraction it is formed over the product of the denominators and reduced. -/
def addM (a b : Scalar) : m Scalar :=
  match a, b with
  | whole i, whole j => return whole (i + j)
  | a, b => reduceM (a.num * b.den + b.num * a.den) (a.den * b.den)

/-- The product. With a fraction it is formed of the products of the parts and reduced. -/
def mulM (a b : Scalar) : m Scalar :=
  match a, b with
  | whole i, whole j => return whole (i * j)
  | a, b => reduceM (a.num * b.num) (a.den * b.den)

end

/-! ## Plain construction and arithmetic -/

/-- The scalar of a pair in lowest terms. Nothing is checked. -/
def ofReduced (n : Int) (d : Nat) : Scalar :=
  Id.run (ofReducedM n d)

/-- The scalar of a pair with a positive denominator, in lowest terms. -/
def reduce (n : Int) (d : Nat) : Scalar :=
  Id.run (reduceM n d)

/-- The quotient of two integers, which is refused for a zero denominator. -/
def quotient? (n d : Int) : Except Failure Scalar :=
  quotientM n d

/-- The sum of two scalars. -/
def add (a b : Scalar) : Scalar :=
  Id.run (addM a b)

/-- The product of two scalars. -/
def mul (a b : Scalar) : Scalar :=
  Id.run (mulM a b)

instance : Add Scalar := ⟨add⟩

instance : Mul Scalar := ⟨mul⟩

theorem ofReduced_eq_ite (n : Int) (d : Nat) :
    ofReduced n d = if d = 1 then whole n else frac ⟨n, d⟩ :=
  rfl

theorem reduce_eq_ofReduced (n : Int) (d : Nat) :
    reduce n d = ofReduced (n / (Nat.gcd n.natAbs d : Nat)) (d / Nat.gcd n.natAbs d) :=
  rfl

theorem quotient?_eq_ite (n d : Int) : quotient? n d =
    if d = 0 then .error .divisionByZero
    else .ok (reduce (if d < 0 then -n else n) d.natAbs) :=
  rfl

theorem whole_add_whole (i j : Int) : whole i + whole j = whole (i + j) :=
  rfl

theorem whole_mul_whole (i j : Int) : whole i * whole j = whole (i * j) :=
  rfl

/-- A whole number is reduced already. -/
theorem reduce_one (n : Int) : reduce n 1 = whole n := by
  simp [reduce_eq_ofReduced, ofReduced_eq_ite]

/-- All sums are the reduced sums over the product of the denominators. -/
theorem add_eq_reduce (a b : Scalar) :
    a + b = reduce (a.num * b.den + b.num * a.den) (a.den * b.den) := by
  cases a with
  | whole i =>
    cases b with
    | whole j =>
      rw [whole_add_whole]
      simp [reduce_one]
    | frac g => rfl
  | frac f => rfl

/-- All products are the reduced products of the parts. -/
theorem mul_eq_reduce (a b : Scalar) : a * b = reduce (a.num * b.num) (a.den * b.den) := by
  cases a with
  | whole i =>
    cases b with
    | whole j =>
      rw [whole_mul_whole]
      simp [reduce_one]
    | frac g => rfl
  | frac f => rfl

/-- Where failures are possible, but no pair is noted, a sum is a plain sum. -/
theorem addM_eq_ok : ∀ a b : Scalar, (addM a b : Except Failure Scalar) = .ok (a + b)
  | whole _, whole _ => rfl
  | whole _, frac _ => rfl
  | frac _, _ => rfl

theorem mulM_eq_ok : ∀ a b : Scalar, (mulM a b : Except Failure Scalar) = .ok (a * b)
  | whole _, whole _ => rfl
  | whole _, frac _ => rfl
  | frac _, _ => rfl

end Scalar

namespace Fraction

/-- The fraction turned over, with the sign kept above the bar. It is a whole number when the
numerator was one or minus one. -/
def inverseM {m : Type → Type} [Monad m] [Trusting m] (f : Fraction) : m Scalar :=
  Scalar.ofReducedM (f.num.sign * f.den) f.num.natAbs

/-- The fraction turned over. -/
def inverse (f : Fraction) : Scalar :=
  Id.run f.inverseM

theorem inverse_eq_ofReduced (f : Fraction) :
    f.inverse = .ofReduced (f.num.sign * f.den) f.num.natAbs :=
  rfl

end Fraction

end Surds
