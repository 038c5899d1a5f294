import Surds.Proofs.Power.Refusal

/-!
# Powers of reciprocals

The reciprocal of a positive scalar has numerator and denominator exchanged, and its powers are
those of the opposite exponent (`power_reciprocal`), refused powers included. The two are computed
from different integers : a fraction may turn into a whole number, of which only one part is raised
to a power, and the part that was raised to `e` is raised to `-e`.

What is refused is a condition on both parts that does not change when they are exchanged
(`exceedsLimit_reciprocal`), and the formal root of the reciprocal is the inverse of the formal root
(`FormalRoot.ofScalar_reciprocal`), so the powers that are computed have one form.
-/

namespace Surds

open Surd

variable {b e : Scalar} {g : Fraction} {q : ℕ} {k p : ℤ} {x : Surd}

namespace Scalar

/-- The canonical scalar of the value turned over. -/
def reciprocal (b : Scalar) : Scalar :=
  ofRat b.value⁻¹

theorem canonical_reciprocal (b : Scalar) : b.reciprocal.Canonical :=
  canonical_ofRat _

theorem value_reciprocal (b : Scalar) : b.reciprocal.value = b.value⁻¹ :=
  value_ofRat _

theorem value_reciprocal_pos (hpos : 0 < b.value) : 0 < b.reciprocal.value := by
  rw [value_reciprocal]
  exact inv_pos.2 hpos

theorem num_reciprocal (hb : b.Canonical) (hpos : 0 < b.value) : b.reciprocal.num = b.den := by
  rw [reciprocal, ofRat, num_ofReduced, Rat.num_inv, Int.sign_eq_one_of_pos (Rat.num_pos.2 hpos),
    one_mul, hb.den_value]

theorem den_reciprocal (hb : b.Canonical) (hpos : 0 < b.value) : b.reciprocal.den = b.num := by
  rw [reciprocal, ofRat, den_ofReduced, Rat.den_inv, if_neg (Rat.num_pos.2 hpos).ne', hb.num_value,
    Int.natAbs_of_nonneg ((value_pos_iff hb).1 hpos).le]

/-- Dividing the denominator by the numerator makes the reciprocal. -/
theorem quotient?_den_num (hb : b.Canonical) (hpos : 0 < b.value) :
    quotient? b.den b.num = .ok b.reciprocal := by
  rw [quotient?_eq_ok _ ((value_pos_iff hb).1 hpos).ne', reciprocal, hb.value_eq_div,
    inv_div, Int.cast_natCast]

/-- A scalar and its reciprocal are both a unit or both none, so the same whole powers are
refused. -/
theorem pow_reciprocal (hb : b.Canonical) (h0 : b.value ≠ 0) :
    b.reciprocal.pow k = b.pow (-k) := by
  have hneg : b.value⁻¹ = -1 ↔ b.value = -1 := by rw [inv_eq_iff_eq_inv, inv_neg, inv_one]
  rw [pow_eq b.canonical_reciprocal, pow_eq hb, value_reciprocal, Int.natAbs_neg, inv_zpow']
  simp only [ne_eq, inv_eq_zero, inv_eq_one, hneg, h0, false_and]

end Scalar

/-! ## Formal roots -/

namespace FormalRoot

/-- The formal product with the opposite exponents. -/
noncomputable def inv (t : FormalRoot) : FormalRoot where
  coef := t.coef⁻¹
  exponents := -t.exponents

theorem isPower_inv {t : FormalRoot} : t.inv.IsPower p x ↔ t.IsPower (-p) x := by
  show FormOf (t.coef⁻¹ ^ p) (p • -t.exponents) x ↔ FormOf (t.coef ^ (-p)) (-p • t.exponents) x
  rw [inv_zpow', zsmul_neg, neg_zsmul]

/-- The formal root of the reciprocal is the inverse of the formal root. -/
theorem ofScalar_reciprocal (hb : b.Canonical) (hpos : 0 < b.value) :
    ofScalar b.reciprocal q = (ofScalar b q).inv := by
  rw [ofScalar, Scalar.num_reciprocal hb hpos, Scalar.den_reciprocal hb hpos, inv, ofScalar,
    inv_div, neg_sub]

end FormalRoot

/-! ## Powers -/

/-- Exchanging the parts of the base and taking the opposite exponent exceeds the limit for the same
numbers. -/
theorem exceedsLimit_reciprocal (hb : b.Canonical) (hpos : 0 < b.value) :
    ExceedsLimit b.reciprocal (.frac g) ↔ ExceedsLimit b (.frac (-g)) := by
  have hnum : b.reciprocal.num.natAbs = b.den := by
    rw [Scalar.num_reciprocal hb hpos, Int.natAbs_natCast]
  have hden : b.reciprocal.den = b.num.natAbs := by
    rw [← Scalar.den_reciprocal hb hpos, Int.natAbs_natCast]
  have hneg : - -g = g := by
    cases g
    exact congrArg (Fraction.mk · _) (neg_neg _)
  rw [ExceedsLimit, ExceedsLimit, hnum, hden, hneg, or_comm (b := PartExceedsLimit b.den g)]
  rfl

theorem not_dividesByZero (hpos : 0 < b.value) : ¬ DividesByZero b e := by
  rintro ⟨-, rfl, -⟩
  exact hpos.ne' Scalar.value_zero

theorem power_frac_reciprocal (hb : b.Canonical) (hpos : 0 < b.value) (hg : g.Canonical) :
    power b.reciprocal (.frac g) = power b (.frac (-g)) := by
  refine eq_of_error_iff (fun w => ?_) fun x y hx hy => ?_
  · rw [power_frac_eq_error_iff hg b.canonical_reciprocal, power_frac_eq_error_iff hg.neg hb,
      exceedsLimit_reciprocal hb hpos]
    simp only [not_dividesByZero (Scalar.value_reciprocal_pos hpos), not_dividesByZero hpos]
  · have hpowx := isPower_power hg hx
    rw [FormalRoot.ofScalar_reciprocal hb hpos, FormalRoot.isPower_inv] at hpowx
    exact hpowx.unique (isPower_power hg.neg hy)

/-- Inverting a positive base is negating the exponent : the power is the same, and is refused for
the same cause. -/
theorem power_reciprocal (hb : b.Canonical) (hpos : 0 < b.value) (he : e.Canonical) :
    ∃ r, Scalar.quotient? b.den b.num = .ok r ∧ r.Canonical ∧ r.value = b.value⁻¹ ∧
      power r e = power b (-e) := by
  refine ⟨b.reciprocal, Scalar.quotient?_den_num hb hpos, b.canonical_reciprocal,
    b.value_reciprocal, ?_⟩
  cases e with
  | whole k =>
    show (b.reciprocal.pow k >>= _) = (b.pow (-k) >>= _)
    rw [Scalar.pow_reciprocal hb hpos.ne']
  | frac g => exact power_frac_reciprocal hb hpos he

/-- The reciprocal of a fraction is a whole number, and a floor over the limit is that of the
numerator of one base and of the denominator of the other. -/
theorem power_reciprocal_of_limit :
    let z := product (.frac ⟨1, 1728⟩) (.single (.int 12) (.frac ⟨1, 2⟩))
    power (.frac ⟨1, 12⟩) (.frac ⟨5, 2⟩) = .ok z ∧ power (.whole 12) (.frac ⟨-5, 2⟩) = .ok z ∧
      power (.frac ⟨2, 3⟩) (.frac ⟨8589934591, 2⟩) = .error .exponentTooLarge ∧
      power (.frac ⟨3, 2⟩) (.frac ⟨-8589934591, 2⟩) = .error .exponentTooLarge := by
  intro z
  obtain ⟨r, hr, -, -, hwhole⟩ :=
    power_reciprocal (b := .frac ⟨1, 12⟩) (e := .frac ⟨-5, 2⟩) (by decide) (by decide) (by decide)
  obtain ⟨s, hs, -, -, hlimit⟩ := power_reciprocal (b := .frac ⟨2, 3⟩)
    (e := .frac ⟨-8589934591, 2⟩) (by decide) (by decide) (by decide)
  obtain rfl : .whole 12 = r := Except.ok.inj hr
  obtain rfl : .frac ⟨3, 2⟩ = s := Except.ok.inj hs
  have hz : power (.frac ⟨1, 12⟩) (.frac ⟨5, 2⟩) = .ok z := rfl
  have herror : power (.frac ⟨2, 3⟩) (.frac ⟨8589934591, 2⟩) = .error .exponentTooLarge := rfl
  exact ⟨hz, hwhole.trans hz, herror, hlimit.trans herror⟩

end Surds
