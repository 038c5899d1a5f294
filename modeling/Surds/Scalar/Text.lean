import Surds.Numeral
import Surds.Scalar.Basic
import Surds.Text

/-!
# Scalars as text

A whole number is written as its numeral, a fraction as two numerals with `/` between them. Reading
ignores blanks at the ends and around the `/`, and accepts fractions that are not in lowest terms or
have a negative denominator.
-/

namespace Surds

open Text

/-- A fraction as two numerals with `/` between them. -/
def Fraction.write (f : Fraction) : List Char :=
  Numeral.write f.num ++ '/' :: Numeral.write f.den

namespace Scalar

/-- A scalar as text. -/
def write : Scalar → List Char
  | whole n => Numeral.write n
  | frac f => f.write

/-- The integer that a text writes. -/
def readWhole (cs : List Char) : Except Failure Scalar :=
  match Numeral.read? cs with
  | some n => .ok (whole n)
  | none => .error .badInteger

section

variable {m : Type → Type} [Monad m] [Trusting m] [MonadLiftT (Except Failure) m]

/-- The quotient of the integers that two texts write. -/
def readQuotientM (above below : List Char) : m Scalar :=
  match Numeral.read? (trim above), Numeral.read? (trim below) with
  | some n, some d => quotientM n d
  | _, _ => failM .badFraction

/-- The scalar that a text writes: a quotient if the text has a `/`, an integer otherwise. -/
def readM (cs : List Char) : m Scalar :=
  match cut? '/' (trim cs) with
  | some (above, below) => readQuotientM above below
  | none => liftM (readWhole (trim cs))

end

/-- The quotient of the integers that two texts write. -/
def readQuotient (above below : List Char) : Except Failure Scalar :=
  readQuotientM above below

/-- The scalar that a text writes: a quotient if the text has a `/`, an integer otherwise. -/
def read (cs : List Char) : Except Failure Scalar :=
  readM cs

theorem readQuotient_eq_match (above below : List Char) : readQuotient above below =
    match Numeral.read? (trim above), Numeral.read? (trim below) with
    | some n, some d => quotient? n d
    | _, _ => .error .badFraction :=
  rfl

theorem read_eq_match (cs : List Char) : read cs =
    match cut? '/' (trim cs) with
    | some (above, below) => readQuotient above below
    | none => readWhole (trim cs) :=
  rfl

/-- The scalar that a string writes. -/
def parse (s : String) : Except Failure Scalar :=
  read s.toList

instance : ToString Scalar := ⟨fun a => String.ofList a.write⟩

end Scalar

instance : ToString Fraction := ⟨fun f => String.ofList f.write⟩

end Surds
