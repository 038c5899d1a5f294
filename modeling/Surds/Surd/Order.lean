import Surds.Scalar.Order
import Surds.Surd.Basic

/-!
# Comparing fractions with surds

A fraction has an order relative to surds that are rational, where it is that of scalars
(`cmpSurd?_scalar`), and to no others (`cmpSurd?_eq_error_iff`).
-/

namespace Surds

/-- Whether a surd is a rational number. -/
def Surd.isScalar : Surd → Bool
  | scalar _ => true
  | _ => false

namespace Fraction

/-- The order of a fraction relative to a surd. -/
def cmpSurd? (f : Fraction) : Surd → Except Failure Ordering
  | .scalar (.frac g) => .ok (f.cmp g)
  | .scalar (.whole n) => .ok (f.cmpInt n)
  | _ => .error .unorderedValue

/-- Relative to a rational surd a fraction is ordered as a scalar. -/
theorem cmpSurd?_scalar (f : Fraction) : ∀ b : Scalar,
    f.cmpSurd? (.scalar b) = .ok ((Scalar.frac f).cmp b)
  | .whole _ => rfl
  | .frac _ => rfl

/-- A fraction has no order relative to the surds that are not rational, and only to these. -/
theorem cmpSurd?_eq_error_iff {f : Fraction} {x : Surd} {w : Failure} :
    f.cmpSurd? x = .error w ↔ w = .unorderedValue ∧ x.isScalar = false := by
  cases x with
  | scalar b => simp [cmpSurd?_scalar, Surd.isScalar]
  | imaginary | root _ _ | product _ _ => simp [cmpSurd?, Surd.isScalar, eq_comm]

end Fraction

end Surds
