import Surds.Proofs.Power.Exact

/-!
# Multiplying powers back

Multiplying as many copies of a power as the denominator of its exponent says takes the root away :
the product is the base raised to the numerator. This holds for every base that is not negative and
for every degree that is odd or two (`copies_power_eq`).

Of a negative base and another even degree there is one exception (`copies_power_of_neg`).
An exact root of the magnitude puts the imaginary unit to the numerator beside it, and in a degree
that four divides this goes round to one : the product is then the opposite of the power. The fourth
root of minus sixteen is such a case, twice the imaginary unit, whose fourth power is sixteen
(`copies_fourth_root_of_neg_sixteen`).
-/

namespace Surds

open Surd

variable {b : Scalar} {e : Fraction} {z : Surd}

/-- Copies of a root never fail to multiply, and as many as its degree make the number. -/
theorem copies_of_rootOf {q : ℕ} {a : ℚ} (h : z.RootOf q a) :
    (∀ n, ∃ y, z.copies n = .ok y) ∧
      ∃ v : Scalar, v.Canonical ∧ v.value = a ∧ z.copies q = .ok (scalar v) := by
  refine ⟨fun n => ?_, .ofRat a, Scalar.canonical_ofRat a, Scalar.value_ofRat a, h.copies⟩
  obtain ⟨y, hy, -⟩ := exists_copies h.canonical n
  exact ⟨y, hy⟩

/-- A power of a base that is not negative, or of odd degree, or of degree two, is a true root :
multiplying its copies never fails, and as many as the degree make the base to the numerator. -/
theorem copies_power_eq (hb : b.Canonical) (he : e.Canonical)
    (hdegree : 0 ≤ b.value ∨ e.den % 2 = 1 ∨ e.den = 2) (h : power b (.frac e) = .ok z) :
    (∀ n, ∃ y, z.copies n = .ok y) ∧
      ∃ v : Scalar, v.Canonical ∧ v.value = b.value ^ e.num ∧ z.copies e.den = .ok (scalar v) := by
  refine copies_of_rootOf (rootOf_power he (fun hneg hfour => ?_) h)
  have hneg' := (Scalar.value_neg_iff hb).2 hneg
  rcases hdegree with hpos | hodd | htwo
  · exact absurd hneg' hpos.not_gt
  · omega
  · omega

/-- Three copies of the power of exponent `-5/3` of `-3/4`. -/
theorem copies_power_neg_three_fourths : ∃ z, power (.frac ⟨-3, 4⟩) (.frac ⟨-5, 3⟩) = .ok z ∧
    (∀ n, ∃ y, z.copies n = .ok y) ∧ ∃ v : Scalar, v.Canonical ∧
      v.value = (Scalar.frac ⟨-3, 4⟩).value ^ (-5 : ℤ) ∧ z.copies 3 = .ok (scalar v) := by
  refine ⟨product (.frac ⟨4, 9⟩)
    ((Exponents.single (.int (-3)) (.frac ⟨1, 3⟩)).insert (.int 4) (.frac ⟨2, 3⟩)), rfl, ?_⟩
  exact copies_power_eq (b := .frac ⟨-3, 4⟩) (e := ⟨-5, 3⟩) (by decide) (by decide)
    (.inr (.inl rfl)) rfl

/-! ## Even degrees of negative bases -/

/-- The imaginary unit beside the exact root of a negative base goes round to one : four divides the
degree, and the magnitude of the integer above the bar has an exact root. -/
def LosesSign (b : Scalar) (e : Fraction) : Prop :=
  e.den % 4 = 0 ∧ ∃ r : ℕ, r ^ e.den = b.num.natAbs

/-- The copies of a power of a negative base make the base to the numerator, or the opposite of it
when the sign is lost. -/
theorem copies_power_of_neg (hb : b.Canonical) (he : e.Canonical) (hneg : b.value < 0)
    (h : power b (.frac e) = .ok z) :
    (∀ n, ∃ y, z.copies n = .ok y) ∧
      (¬ LosesSign b e → ∃ v : Scalar, v.Canonical ∧ v.value = b.value ^ e.num ∧
        z.copies e.den = .ok (scalar v)) ∧
      (LosesSign b e → ∃ v : Scalar, v.Canonical ∧ v.value = -b.value ^ e.num ∧
        z.copies e.den = .ok (scalar v)) := by
  have hnum := (Scalar.value_neg_iff hb).1 hneg
  by_cases hlost : LosesSign b e
  · obtain ⟨hfour, r, hr⟩ := hlost
    obtain ⟨hok, hcopies⟩ := copies_of_rootOf (rootOf_power_of_four_dvd he hnum hfour hr h)
    exact ⟨hok, fun hkept => absurd ⟨hfour, r, hr⟩ hkept, fun _ => hcopies⟩
  · obtain ⟨hok, hcopies⟩ :=
      copies_of_rootOf (rootOf_power he (fun _ hfour r hr => hlost ⟨hfour, r, hr⟩) h)
    exact ⟨hok, fun _ => hcopies, fun hlost' => absurd hlost' hlost⟩

/-- Four copies of the fourth root of minus four, which keeps its negative base. -/
theorem copies_fourth_root_of_neg_four : ∃ z, power (.whole (-4)) (.frac ⟨1, 4⟩) = .ok z ∧
    ¬ LosesSign (.whole (-4)) ⟨1, 4⟩ ∧ ∃ v : Scalar, v.Canonical ∧
      v.value = (Scalar.whole (-4)).value ^ (1 : ℤ) ∧ z.copies 4 = .ok (scalar v) := by
  have hkept : ¬ LosesSign (.whole (-4)) ⟨1, 4⟩ := fun ⟨_, r, hr⟩ =>
    (exactRoot?_eq_none_iff (by decide)).1 (rfl : exactRoot? 4 4 = none) r hr
  have hneg : (Scalar.whole (-4)).value < 0 := (Scalar.value_neg_iff (Scalar.canonical_whole _)).2
    (by decide)
  have hpower : power (.whole (-4)) (.frac ⟨1, 4⟩) = .ok (root (-4) ⟨1, 4⟩) := rfl
  exact ⟨_, hpower, hkept, (copies_power_of_neg (e := ⟨1, 4⟩) (Scalar.canonical_whole _)
    (by decide) hneg hpower).2.1 hkept⟩

/-- The fourth root of minus sixteen is no root : its fourth power is sixteen. -/
theorem copies_fourth_root_of_neg_sixteen :
    ∃ z, power (.whole (-16)) (.frac ⟨1, 4⟩) = .ok z ∧ z.copies 4 = .ok (scalar (.whole 16)) ∧
      (Scalar.whole 16).value ≠ (Scalar.whole (-16)).value ^ (1 : ℤ) := by
  refine ⟨product (.whole 2) (.single .imaginary 1), rfl, rfl, ?_⟩
  rw [Scalar.value_whole, Scalar.value_whole]
  norm_num

end Surds
