import Surds.Scalar.Basic

/-!
# Hashing scalars

A hash code depends on the kind of a scalar and on the low 64 bits of its parts only: parts that are
congruent modulo `2 ^ 64` are not told apart.

The low word of an integer is its residue modulo `2 ^ 64` (`toNat_lowWord`), also that of a negative
one: negating the low word of the magnitude with wrap-around negates the residue. Mixing a word into
a known code loses nothing of the word (`mixWord_inj`), since sums with wrap-around and bitwise
differences can be undone.
-/

namespace Surds

/-- The low 64 bits of the magnitude of an integer, negated with wrap-around if it is negative. -/
def lowWord (n : Int) : UInt64 :=
  let low := UInt64.ofNat n.natAbs
  if n < 0 then -low else low

/-- The low word of an integer is its residue. -/
theorem toNat_lowWord (n : Int) : ((lowWord n).toNat : Int) = n % UInt64.size := by
  unfold lowWord
  split
  · rw [UInt64.toNat_neg, UInt64.toNat_ofNat', UInt64.size]
    omega
  · rw [UInt64.toNat_ofNat', UInt64.size]
    omega

/-- A hash code after one more word. -/
def mixWord (code word : UInt64) : UInt64 :=
  code ^^^ (word + (0x9e3779b9 : UInt64) + (code <<< (6 : UInt64)) + (code >>> (2 : UInt64)))

/-- A word that was mixed into a known code can be read off the result. -/
theorem mixWord_inj {code v w : UInt64} : mixWord code v = mixWord code w ↔ v = w := by
  rw [mixWord, mixWord, UInt64.xor_right_inj, UInt64.add_left_inj, UInt64.add_left_inj,
    UInt64.add_left_inj]

/-- The hash code of a scalar, from a seed for its kind and the low words of its parts. -/
def Scalar.hashCode : Scalar → UInt64
  | .whole n => mixWord 0x11 (lowWord n)
  | .frac f => mixWord (mixWord 0x12 (lowWord f.num)) (lowWord f.den)

instance : Hashable Scalar := ⟨Scalar.hashCode⟩

end Surds
