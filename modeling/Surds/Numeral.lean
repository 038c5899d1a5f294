import Surds.Failure

/-!
# Decimal numerals

How an integer is read and written. It is written with `-` in front when it is negative, and without
leading zeros. Reading is wider: leading zeros are allowed, `_` may stand anywhere after the first
digit, and a zero may carry two signs.

There are two readers. `readInteger?` is that of integers of any size, which takes a sign of either
kind in front of the digits. `read?` is the reader for input: it takes off one `-` itself, leaves
the rest to `readInteger?`, and then refuses what was read with a `+` or became negative by a second
`-`.
-/

namespace Surds.Numeral

/-! ## Integers of any size -/

/-- A character that may follow the first digit. -/
def isDigitOrGap (c : Char) : Bool :=
  c.isDigit || c = '_'

/-- The number that digits and gaps write. There has to be a character, and the first is no gap. -/
def readDigits? (cs : List Char) : Option Nat :=
  if cs = [] ∨ cs.head? = some '_' then none
  else if cs.all isDigitOrGap then some (Nat.ofDigitChars 10 (cs.filter Char.isDigit) 0)
  else none

/-- A text without the sign at its start. A sign in front of a `+` is left where it is. -/
def dropSign (sign : Char) (cs : List Char) : List Char :=
  if cs.head? = some sign ∧ cs.tail.head? ≠ some '+' then cs.tail else cs

/-- The natural number that a text writes, with or without a `+`. -/
def readNatural? (cs : List Char) : Option Nat :=
  readDigits? (dropSign '+' cs)

/-- The integer that a text writes, with one sign or none. -/
def readInteger? (cs : List Char) : Option Int :=
  (readNatural? (dropSign '-' cs)).map fun n : Nat => if cs.head? = some '-' then -n else n

/-! ## Input and output -/

/-- The integer that a text without blanks writes in input. -/
def read? (cs : List Char) : Option Int := do
  let (negative, digits) := match cs with
    | '-' :: digits => (true, digits)
    | _ => (false, cs)
  let magnitude ← readInteger? digits
  if magnitude < 0 ∨ digits.head? = some '+' then none
  else some (if negative then -magnitude else magnitude)

/-- An integer in decimal digits, with its sign if it is negative. -/
def write : Int → List Char
  | .ofNat n => Nat.toDigits 10 n
  | .negSucc n => '-' :: Nat.toDigits 10 (n + 1)

/-- The integer that a string writes. -/
def parse (s : String) : Except Failure Int :=
  match read? s.toList with
  | some n => .ok n
  | none => .error .badInteger

/-- An integer as a string. -/
def toString (n : Int) : String :=
  String.ofList (write n)

end Surds.Numeral
