import Surds.Proofs.Power.Exact

/-!
# Adding exponents of powers

Powers of one base multiply by adding their exponents, as long as all the exponents belong to one
degree `q` : whole numbers, and fractions of denominator `q` (`power_mul_power`). Such an exponent
is `m / q` for an integer `m`, and the power is the `m`-th power of the formal `q`-th root of the
base (`isPower_power_of_hasDegree`). For a whole exponent this needs a true root, which
there is for a positive base, an odd degree and degree two.

Whole powers of the base, powers of exact roots and radicals are computed in different ways, and two
radicals may multiply to a whole power. None of this is visible in the formal root.
-/

namespace Surds

open Surd

variable {b d e : Scalar} {q : ℕ} {x y z : Surd}

/-- The exponent is whole, or its denominator in lowest terms is `q`. -/
def Scalar.HasDegree (q : ℕ) (e : Scalar) : Prop :=
  e.den = 1 ∨ e.den = q

instance (q : ℕ) (e : Scalar) : Decidable (e.HasDegree q) :=
  inferInstanceAs (Decidable (_ ∨ _))

/-- A whole power that is computed is the power of the value. -/
theorem eq_scalar_of_power_whole (hb : b.Canonical) {k : ℤ} (h : power b (.whole k) = .ok x) :
    x = scalar (.ofRat (b.value ^ k)) := by
  obtain ⟨v, hv, hx⟩ := bind_eq_ok_iff.1 h
  rw [← Except.ok.inj hx, ((Scalar.pow_eq_ok_iff hb).1 hv).2.2]

/-- The formal `q`-th root of a base that is positive or has odd or second roots is a true root. -/
theorem FormalRoot.isRoot_ofScalar_of_degree (hb : b.Canonical) (hq : 0 < q)
    (hdegree : 0 < b.value ∨ q % 2 = 1 ∨ q = 2) :
    IsRoot q b.value (ofScalar b q).coef (ofScalar b q).exponents := by
  have hroot := isRoot_ofScalar hq (isRoot_ofInt (n := b.num) hq fun hneg hfour => ?_)
  · rwa [← Rat.mkRat_eq_div] at hroot
  · have hneg' := (Scalar.value_neg_iff hb).2 hneg
    rcases hdegree with hpos | hodd | htwo
    · exact absurd hneg' hpos.not_gt
    · omega
    · omega

/-- A power of degree `q` is a whole power of the formal `q`-th root. -/
theorem isPower_power_of_hasDegree (hb : b.Canonical) (hq : 0 < q)
    (hdegree : 0 < b.value ∨ q % 2 = 1 ∨ q = 2) (he : e.Canonical) (heq : e.HasDegree q)
    (h : power b e = .ok x) :
    ∃ m : ℤ, e.value = m / q ∧ (FormalRoot.ofScalar b q).IsPower m x := by
  have hq0 : (q : ℚ) ≠ 0 := Nat.cast_ne_zero.2 hq.ne'
  cases e with
  | whole k =>
    refine ⟨k * q, ?_, ?_⟩
    · rw [Scalar.value_whole, Int.cast_mul, Int.cast_natCast, mul_div_cancel_right₀ _ hq0]
    · have hroot := (FormalRoot.isRoot_ofScalar_of_degree hb hq hdegree).zpow k
      rw [eq_scalar_of_power_whole hb h, FormalRoot.IsPower, zpow_mul, zpow_natCast, mul_comm k,
        mul_zsmul, natCast_zsmul]
      exact formOf_pow_of_isRoot hroot
  | frac f =>
    have hden : f.den = q := heq.resolve_left he.1.ne'
    refine ⟨f.num, ?_, ?_⟩
    · rw [Scalar.Canonical.value_eq_div he, Scalar.num_frac, Scalar.den_frac, hden]
    · rw [← hden]
      exact isPower_power he h

/-- Powers of one base to exponents of one degree multiply by adding the exponents. -/
theorem power_mul_power (hb : b.Canonical) (hne : b ≠ 0) (hq : 2 ≤ q)
    (hdegree : 0 < b.value ∨ q % 2 = 1 ∨ q = 2) (hd : d.Canonical) (he : e.Canonical)
    (hdq : d.HasDegree q) (heq : e.HasDegree q) (hsumq : (d + e).HasDegree q)
    (hx : power b d = .ok x) (hy : power b e = .ok y) (hz : power b (d + e) = .ok z) :
    x.mul y = .ok z := by
  have hpos : 0 < q := by omega
  have hq0 : (q : ℚ) ≠ 0 := Nat.cast_ne_zero.2 hpos.ne'
  have hcoef : (FormalRoot.ofScalar b q).coef ≠ 0 :=
    (FormalRoot.isRoot_ofScalar_of_degree hb hpos hdegree).coef_ne_zero hpos.ne'
      (mt hb.value_eq_zero_iff.1 hne)
  obtain ⟨k, hk, hpowx⟩ := isPower_power_of_hasDegree hb hpos hdegree hd hdq hx
  obtain ⟨l, hl, hpowy⟩ := isPower_power_of_hasDegree hb hpos hdegree he heq hy
  obtain ⟨m, hm, hpowz⟩ :=
    isPower_power_of_hasDegree hb hpos hdegree (Scalar.canonical_add hd he) hsumq hz
  have hadd : m = k + l := by
    rw [Scalar.value_add hd he, hk, hl, ← add_div, div_left_inj' hq0] at hm
    exact_mod_cast hm.symm
  obtain ⟨w, hw⟩ := exists_mul hpowx.canonical hpowy.canonical
  have hpoww := hpowx.mul hcoef hpowy hw
  rw [← hadd] at hpoww
  rw [hw, hpoww.unique hpowz]

/-- The exponents `2/3` and `-5/3` of `-8/5` make the exponent `-1` : the numerator has an exact
root, and the two radicals of the denominator cancel to a whole power. -/
theorem power_mul_power_neg_eight_fifths : ∃ x y,
    power (.frac ⟨-8, 5⟩) (.frac ⟨2, 3⟩) = .ok x ∧
    power (.frac ⟨-8, 5⟩) (.frac ⟨-5, 3⟩) = .ok y ∧
    power (.frac ⟨-8, 5⟩) (.frac ⟨2, 3⟩ + .frac ⟨-5, 3⟩) = .ok (scalar (.frac ⟨-5, 8⟩)) ∧
    x.mul y = .ok (scalar (.frac ⟨-5, 8⟩)) := by
  refine ⟨_, _, rfl, rfl, rfl, ?_⟩
  exact power_mul_power (b := .frac ⟨-8, 5⟩) (d := .frac ⟨2, 3⟩) (e := .frac ⟨-5, 3⟩) (q := 3)
    (by decide) (by decide) (by decide) (.inr (.inl rfl)) (by decide) (by decide) (by decide)
    (by decide) (by decide) rfl rfl rfl

end Surds
