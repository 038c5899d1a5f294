import Surds.Scalar.Basic

/-!
# Powers and roots of scalars

Any scalar can be raised to an integer exponent whose magnitude is within `exponentLimit`; zero, one
and minus one can be raised to every exponent for which the power exists. The power of exponent zero
is one, also for zero. A negative exponent turns the power over.

`floorRoot n x` is the largest natural number whose `n`-th power does not exceed `x`, found bit
by bit from the top. `exactRoot? n x` is the `n`-th root of `x` when it is a natural number. For
integers an odd root keeps the sign, and an even root of a negative integer does not exist. A
fraction in lowest terms has an exact root just when both its parts have one.

Powers and roots of coprime numbers are coprime, so neither is reduced.
-/

namespace Surds

section

variable {m : Type → Type} [Monad m] [Trusting m] [MonadLiftT (Except Failure) m]

/-! ## Whole powers -/

/-- An integer raised to an integer exponent. -/
def intPowM (n k : Int) : m Scalar :=
  if k = 0 then return 1
  else if n = 0 then
    if k < 0 then failM .divisionByZero else return 0
  else if n.natAbs = 1 then
    return .whole (if n < 0 ∧ k % 2 = 1 then -1 else 1)
  else do
    let e ← withinLimit k.natAbs
    if k < 0 then Scalar.quotientM 1 (n.pow e) else return .whole (n.pow e)

/-- A fraction raised to an integer exponent. A negative power is trusted after it is turned over,
and not before. -/
def Fraction.powM (f : Fraction) (k : Int) : m Scalar :=
  if k = 0 then return 1
  else do
    let e ← withinLimit k.natAbs
    let power : Fraction := ⟨f.num.pow e, f.den.pow e⟩
    if k < 0 then power.inverseM else return .frac (← power.trustedM)

/-- A scalar raised to an integer exponent. -/
def Scalar.powM : Scalar → Int → m Scalar
  | .whole n, k => intPowM n k
  | .frac f, k => f.powM k

end

/-- An integer raised to an integer exponent. -/
def intPow (n k : Int) : Except Failure Scalar :=
  intPowM n k

/-- A fraction raised to an integer exponent. -/
def Fraction.pow (f : Fraction) (k : Int) : Except Failure Scalar :=
  f.powM k

/-- A scalar raised to an integer exponent. -/
def Scalar.pow (a : Scalar) (k : Int) : Except Failure Scalar :=
  a.powM k

theorem intPow_eq_ite (n k : Int) : intPow n k =
    if k = 0 then .ok 1
    else if n = 0 then
      if k < 0 then .error .divisionByZero else .ok 0
    else if n.natAbs = 1 then
      .ok (.whole (if n < 0 ∧ k % 2 = 1 then -1 else 1))
    else withinLimit k.natAbs >>= fun e =>
      if k < 0 then Scalar.quotient? 1 (n.pow e) else .ok (.whole (n.pow e)) :=
  rfl

theorem Fraction.pow_eq_ite (f : Fraction) (k : Int) : f.pow k =
    if k = 0 then .ok 1
    else withinLimit k.natAbs >>= fun e =>
      if k < 0 then .ok (inverse ⟨f.num.pow e, f.den.pow e⟩)
      else .ok (.frac ⟨f.num.pow e, f.den.pow e⟩) :=
  rfl

theorem Scalar.pow_whole (n k : Int) : (whole n).pow k = intPow n k :=
  rfl

theorem Scalar.pow_frac (f : Fraction) (k : Int) : (frac f).pow k = f.pow k :=
  rfl

/-! ## Exact roots of integers -/

/-- Decide the lowest `bits` bits of a root from the top: a bit is set if the `n`-th power then
still does not exceed `x`. -/
def rootBits (n x : Nat) : (bits root : Nat) → Nat
  | 0, root => root
  | i + 1, root =>
    let next := root + Nat.pow 2 i
    rootBits n x i (if next.pow n ≤ x then next else root)

/-- The largest natural number whose `n`-th power does not exceed `x`, for a positive `n`. It has at
most `log₂ x / n + 1` bits. -/
def floorRoot (n x : Nat) : Nat :=
  rootBits n x (x.log2 / n + 1) 0

/-- The natural number whose `n`-th power is `x`, for a positive `n`. -/
def exactRoot? (n x : Nat) : Option Nat :=
  if n = 1 ∨ x ≤ 1 then some x
  else
    let root := floorRoot n x
    if root.pow n = x then some root else none

/-- The integer whose `n`-th power is `a` and whose sign is that of `a`. -/
def intRoot? (n : Nat) (a : Int) : Except Failure (Option Int) :=
  if n = 0 then .error .zerothRoot
  else if a < 0 ∧ n % 2 = 0 then .ok none
  else .ok ((exactRoot? n a.natAbs).map fun root => a.sign * root)

/-! ## Exact roots of scalars -/

section

variable {m : Type → Type} [Monad m] [Trusting m] [MonadLiftT (Except Failure) m]

/-- The fraction of the exact roots of both parts. -/
def Fraction.rootM (n : Nat) (f : Fraction) : m (Option Fraction) := do
  match ← intRoot? n f.num, exactRoot? n f.den with
  | some num, some den => return some (← trustedM ⟨num, den⟩)
  | _, _ => return none

/-- The exact `n`-th root of a scalar. -/
def Scalar.rootM (n : Nat) : Scalar → m (Option Scalar)
  | .whole a => return (← intRoot? n a).map .whole
  | .frac f => return (← f.rootM n).map .frac

end

/-- The fraction of the exact roots of both parts. -/
def Fraction.root? (n : Nat) (f : Fraction) : Except Failure (Option Fraction) :=
  f.rootM n

/-- The exact `n`-th root of a scalar. -/
def Scalar.root? (n : Nat) (a : Scalar) : Except Failure (Option Scalar) :=
  a.rootM n

theorem Fraction.root?_eq_bind (n : Nat) (f : Fraction) : f.root? n =
    intRoot? n f.num >>= fun above =>
      return above.bind fun num => (exactRoot? n f.den).map fun den => ⟨num, den⟩ := by
  rw [root?, rootM]
  cases intRoot? n f.num with
  | error w => rfl
  | ok above =>
    cases above with
    | none => rfl
    | some num => cases exactRoot? n f.den <;> rfl

theorem Scalar.root?_whole (n : Nat) (a : Int) :
    (whole a).root? n = do return (← intRoot? n a).map .whole :=
  rfl

theorem Scalar.root?_frac (n : Nat) (f : Fraction) :
    (frac f).root? n = do return (← f.root? n).map .frac :=
  rfl

end Surds
