import Surds.Scalar.Text
import Surds.Surd.Basic

/-!
# Surds as text

A product is written with `*` between its factors, the coefficient first. A coefficient of one is
left out, and minus one is written as `-` alone. Negative bases and fractional exponents stand in
parentheses, and the imaginary unit is `I`.
-/

namespace Surds

/-- A base as text. -/
def Base.write : Base → List Char
  | imaginary => ['I']
  | int n => if n < 0 then '(' :: Numeral.write n ++ [')'] else Numeral.write n

/-- An exponent as it stands after `^`. -/
def Scalar.writeExponent : Scalar → List Char
  | whole k => Numeral.write k
  | frac r => '(' :: r.write ++ [')']

/-- A power as text. An exponent of one is left out. -/
def Base.writePower (b : Base) (e : Scalar) : List Char :=
  if e = 1 then b.write else b.write ++ '^' :: e.writeExponent

namespace Surd

/-- A surd as text. -/
def write : Surd → List Char
  | scalar a => a.write
  | imaginary => Base.imaginary.write
  | root n r => (Base.int n).writePower (.frac r)
  | product c p =>
    let factors := p.entries.map fun q => q.1.writePower q.2
    if c = -1 then '-' :: List.intercalate ['*'] factors
    else if c = 1 then List.intercalate ['*'] factors
    else List.intercalate ['*'] (c.write :: factors)

instance : ToString Surd := ⟨fun x => String.ofList x.write⟩

end Surd

end Surds
