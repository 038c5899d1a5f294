import Mathlib.Data.Int.ModEq
import Surds.Proofs.Scalar.Power
import Surds.Proofs.Scalar.RoundTrip
import Surds.Scalar.Hash

/-!
# Representations and hash codes

Reducing a quotient is a perfect normal form : two pairs of integers make the same scalar just when
their cross products agree (`quotient?_eq_quotient?_iff`), whatever the signs of the denominators
are and whether or not zero is above the bar. For the quotient is `ofRat` of the rational number, and
`ofRat` tells rational numbers apart (`ofRat_inj`).

So the text and the hash code of a quotient depend on its value only, and the kind as well : it is a
whole number just when the division leaves nothing over (`exists_ofRat_eq_whole_iff`).

Hash codes do not tell all values apart. Those of two whole numbers are the same just when the
numbers are congruent modulo `2 ^ 64`, and those of two fractions with congruent numerators when
their denominators are (`hashCode_eq_iff`).
-/

namespace Surds.Scalar

variable {p q : ℚ} {n d d' : ℤ}

/-! ## One representation for each value -/

theorem ofRat_inj : ofRat p = ofRat q ↔ p = q := by
  rw [← (canonical_ofRat p).value_eq_iff (canonical_ofRat q), value_ofRat, value_ofRat]

/-- Quotients are told apart by their cross products. -/
theorem ofRat_div_inj (n n' : ℤ) (hd : d ≠ 0) (hd' : d' ≠ 0) :
    ofRat (n / d) = ofRat (n' / d') ↔ n * d' = n' * d := by
  rw [ofRat_inj, div_eq_div_iff (Int.cast_ne_zero.2 hd) (Int.cast_ne_zero.2 hd')]
  exact_mod_cast Iff.rfl

/-- A quotient is a whole number when the denominator divides the numerator. -/
theorem exists_ofRat_eq_whole_iff (hd : d ≠ 0) : (∃ k, ofRat (n / d) = whole k) ↔ d ∣ n := by
  refine exists_congr fun k => ?_
  rw [← ofRat_intCast, ofRat_inj, div_eq_iff (Int.cast_ne_zero.2 hd), mul_comm]
  exact_mod_cast Iff.rfl

theorem toString_ofRat_inj : toString (ofRat p) = toString (ofRat q) ↔ ofRat p = ofRat q :=
  ⟨toString_injective (canonical_ofRat p) (canonical_ofRat q), congrArg toString⟩

/-- A quotient of two integers has one representation, and so one text and one hash code, for each
value, which is a whole number just when the division leaves nothing over. A quotient by zero is
refused. -/
theorem quotient?_eq_quotient?_iff :
    (∀ n d n' d' : ℤ, d ≠ 0 → d' ≠ 0 → ∃ a b, quotient? n d = .ok a ∧ quotient? n' d' = .ok b ∧
      (a = b ↔ n * d' = n' * d) ∧ (toString a = toString b ↔ n * d' = n' * d) ∧
      (n * d' = n' * d → a.hashCode = b.hashCode)) ∧
    (∀ n d : ℤ, d ≠ 0 → ∃ a, quotient? n d = .ok a ∧ a.value = n / d ∧
      ((∃ k, a = whole k) ↔ d ∣ n)) ∧
    ∀ n : ℤ, quotient? n 0 = .error .divisionByZero := by
  refine ⟨fun n d n' d' hd hd' => ?_, fun n d hd => ?_, fun n => rfl⟩
  · have hinj := ofRat_div_inj n n' hd hd'
    exact ⟨_, _, quotient?_eq_ok n hd, quotient?_eq_ok n' hd', hinj, toString_ofRat_inj.trans hinj,
      fun h => congrArg hashCode (hinj.2 h)⟩
  · exact ⟨_, quotient?_eq_ok n hd, value_ofRat _, exists_ofRat_eq_whole_iff hd⟩

/-- Two pairs for one negative fraction, one of them with the sign below the bar. -/
theorem quotient?_eq_quotient?_of_signs :
    ∃ a b, quotient? (-6) 10 = .ok a ∧ quotient? 9 (-15) = .ok b ∧ a = b ∧
      toString a = toString b ∧ a.hashCode = b.hashCode ∧ ¬ ∃ k, a = whole k := by
  obtain ⟨hpairs, hkind, -⟩ := quotient?_eq_quotient?_iff
  obtain ⟨a, b, ha, hb, hab, htext, hhash⟩ := hpairs (-6) 10 9 (-15) (by decide) (by decide)
  obtain ⟨_, ha', -, hwhole⟩ := hkind (-6) 10 (by decide)
  obtain rfl := Except.ok.inj (ha.symm.trans ha')
  exact ⟨a, b, ha, hb, hab.2 (by decide), htext.2 (by decide), hhash (by decide),
    mt hwhole.1 (by decide)⟩

/-! ## Collisions of hash codes -/

theorem lowWord_eq_iff {m n : ℤ} : lowWord m = lowWord n ↔ m ≡ n [ZMOD 2 ^ 64] := by
  rw [← UInt64.toNat_inj, ← Int.natCast_inj, toNat_lowWord, toNat_lowWord]
  exact Iff.rfl

/-- Only the residues of the parts are seen, and of the last part the residue is seen exactly. -/
theorem hashCode_eq_iff :
    (∀ m n : ℤ, (whole m).hashCode = (whole n).hashCode ↔ m ≡ n [ZMOD 2 ^ 64]) ∧
      ∀ f g : Fraction, f.num ≡ g.num [ZMOD 2 ^ 64] →
        ((frac f).hashCode = (frac g).hashCode ↔ f.den ≡ g.den [MOD 2 ^ 64]) := by
  refine ⟨fun m n => mixWord_inj.trans lowWord_eq_iff, fun f g hnum => ?_⟩
  rw [hashCode, hashCode, lowWord_eq_iff.2 hnum, mixWord_inj, lowWord_eq_iff]
  exact_mod_cast Int.natCast_modEq_iff

/-- A negative number and a positive one, and two fractions with numerators beyond a word. -/
theorem hashCode_eq_of_wide_parts :
    (whole (-1)).hashCode = (whole 18446744073709551615).hashCode ∧
      (frac ⟨-1, 2⟩).hashCode = (frac ⟨18446744073709551615, 18446744073709551618⟩).hashCode ∧
      (frac ⟨1, 2⟩).hashCode ≠ (frac ⟨18446744073709551617, 3⟩).hashCode := by
  obtain ⟨hwhole, hfrac⟩ := hashCode_eq_iff
  exact ⟨(hwhole _ _).2 (by decide), (hfrac ⟨-1, 2⟩ ⟨_, _⟩ (by decide)).2 (by decide),
    mt (hfrac ⟨1, 2⟩ ⟨_, _⟩ (by decide)).1 (by decide)⟩

end Surds.Scalar
