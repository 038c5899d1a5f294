import Surds.Scalar.Basic

/-!
# The order of scalars

Fractions are compared by cross-multiplication, which is exact for every pair with a positive
denominator. Whole numbers and fractions are compared by value, each pair of kinds in its own way.
`sort` arranges a list of scalars in ascending order.
-/

namespace Surds

namespace Fraction

/-- The order of two fractions. Over one denominator the numerators decide. -/
def cmp (a b : Fraction) : Ordering :=
  if a.den = b.den then compare a.num b.num
  else compare (a.num * b.den) (b.num * a.den)

/-- The order of a fraction relative to an integer. -/
def cmpInt (a : Fraction) (n : Int) : Ordering :=
  compare a.num (n * a.den)

end Fraction

namespace Scalar

/-- The order of two scalars by value. -/
def cmp : Scalar → Scalar → Ordering
  | whole m, whole n => compare m n
  | frac f, frac g => f.cmp g
  | frac f, whole n => f.cmpInt n
  | whole n, frac f => (f.cmpInt n).swap

instance : Ord Scalar := ⟨cmp⟩

/-- The scalars of a list in ascending order. -/
def sort (scalars : List Scalar) : List Scalar :=
  scalars.mergeSort fun a b => (a.cmp b).isLE

end Scalar

end Surds
