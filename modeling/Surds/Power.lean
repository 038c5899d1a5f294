import Surds.Surd.Basic

/-!
# Exact powers

`power b e` is the scalar `b` raised to the scalar `e`, exactly. An integer to the exponent `p /
q` is the `p`-th power of its exact `q`-th root if it has one (`Surd.ofExactRoot`). If not, the
exponent is split into its floor, which gives the coefficient, and the rest, which stays as a
root (`Surd.residualPowers`). A fraction is the power of its numerator times the power of its
denominator to the opposite exponent.

Odd roots of negative integers are negative. For an even degree the imaginary unit appears when
the magnitude has an exact root, and also for square roots that are not exact; other roots of
negative integers keep their negative base.
-/

namespace Surds

section

variable {m : Type → Type} [Monad m] [Trusting m] [MonadLiftT (Except Failure) m]

namespace Surd

/-- The power of exponent `p / q` of an integer whose magnitude has the exact `q`-th root `r`. -/
def ofExactRootM (negative : Bool) (r p : Int) (q : Nat) : m Surd :=
  if !negative then do
    return scalar (← intPowM r p)
  else if q % 2 = 0 then do
    let magnitude ← intPowM r p
    let unit ← imaginaryPowerM p
    unit.mulM (scalar magnitude)
  else do
    return scalar (← intPowM (-r) p)

/-- The powers that stay beside the coefficient when an integer without an exact root is raised to a
fraction. What the fraction exceeds its floor by is trusted to be in lowest terms. -/
def residualPowersM (n : Int) (e : Fraction) : m Exponents := do
  let rest ← e.fractionalPart.trustedM
  if n < 0 ∧ e.den = 2 then
    let unit := Exponents.single .imaginary 1
    -- Nothing is left of the root of one.
    return if n.natAbs = 1 then unit else unit.insert (.int n.natAbs) (.frac rest)
  else return .single (.int n) (.frac rest)

/-- An integer raised to a fraction. -/
def ofIntPowerM (n : Int) (e : Fraction) : m Surd := do
  let degree ← withinLimit e.den
  match ← intRoot? degree n.natAbs with
  | some r => ofExactRootM (n < 0) r e.num degree
  | none =>
    let c ← intPowM n e.floor
    ofPowersM c (← residualPowersM n e)

/-- A fraction raised to a fraction. -/
def ofFractionPowerM (f e : Fraction) : m Surd := do
  let above ← ofIntPowerM f.num e
  let below ← ofIntPowerM f.den (-e)
  above.mulM below

end Surd

/-- A scalar raised to a scalar. -/
def powerM (b e : Scalar) : m Surd :=
  match b, e with
  | b, .whole k => return .scalar (← b.powM k)
  | .whole n, .frac r => Surd.ofIntPowerM n r
  | .frac f, .frac r => Surd.ofFractionPowerM f r

end

namespace Surd

/-- The power of exponent `p / q` of an integer whose magnitude has the exact `q`-th root `r`. -/
def ofExactRoot (negative : Bool) (r p : Int) (q : Nat) : Except Failure Surd :=
  ofExactRootM negative r p q

/-- The powers that stay beside the coefficient when an integer without an exact root is raised to a
fraction. -/
def residualPowers (n : Int) (e : Fraction) : Exponents :=
  Id.run (residualPowersM n e)

/-- An integer raised to a fraction. -/
def ofIntPower (n : Int) (e : Fraction) : Except Failure Surd :=
  ofIntPowerM n e

/-- A fraction raised to a fraction. -/
def ofFractionPower (f e : Fraction) : Except Failure Surd :=
  ofFractionPowerM f e

theorem ofExactRoot_eq_ite (negative : Bool) (r p : Int) (q : Nat) :
    ofExactRoot negative r p q =
      if !negative then intPow r p >>= fun v => .ok (scalar v)
      else if q % 2 = 0 then
        intPow r p >>= fun v => imaginaryPower p >>= fun x => x.mul (scalar v)
      else intPow (-r) p >>= fun v => .ok (scalar v) :=
  rfl

theorem residualPowers_eq_ite (n : Int) (e : Fraction) : residualPowers n e =
    if n < 0 ∧ e.den = 2 then
      if n.natAbs = 1 then .single .imaginary 1
      else (Exponents.single .imaginary 1).insert (.int n.natAbs) (.frac e.fractionalPart)
    else .single (.int n) (.frac e.fractionalPart) := by
  rw [residualPowers, residualPowersM]
  split
  · split <;> rfl
  · rfl

theorem residualPowersM_eq_ok (n : Int) (e : Fraction) :
    (residualPowersM n e : Except Failure Exponents) = .ok (residualPowers n e) := by
  rw [residualPowersM, residualPowers_eq_ite]
  split
  · split <;> rfl
  · rfl

theorem ofIntPower_eq_bind (n : Int) (e : Fraction) : ofIntPower n e =
    withinLimit e.den >>= fun degree => intRoot? degree n.natAbs >>= fun root =>
      match root with
      | some r => ofExactRoot (n < 0) r e.num degree
      | none => intPow n e.floor >>= fun c => ofPowers c (residualPowers n e) := by
  simp only [ofIntPower, ofIntPowerM, residualPowersM_eq_ok]
  rfl

theorem ofFractionPower_eq_bind (f e : Fraction) : ofFractionPower f e =
    ofIntPower f.num e >>= fun x => ofIntPower f.den (-e) >>= fun y => x.mul y :=
  rfl

end Surd

/-- A scalar raised to a scalar. -/
def power (b e : Scalar) : Except Failure Surd :=
  powerM b e

theorem power_whole (b : Scalar) (k : Int) :
    power b (.whole k) = b.pow k >>= fun v => .ok (.scalar v) := by
  cases b <;> rfl

theorem power_whole_frac (n : Int) (e : Fraction) :
    power (.whole n) (.frac e) = Surd.ofIntPower n e :=
  rfl

theorem power_frac_frac (f e : Fraction) :
    power (.frac f) (.frac e) = Surd.ofFractionPower f e :=
  rfl

end Surds
