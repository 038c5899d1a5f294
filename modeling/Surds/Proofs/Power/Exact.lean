import Surds.Proofs.Power.Integer
import Surds.Proofs.Scalar.Root

/-!
# Exact powers of scalars

A fraction is raised to a power through its numerator and its denominator, and both powers are
powers of integers. So a power of exponent `p / q` is the `p`-th power of the formal `q`-th root
of the base (`FormalRoot.ofScalar`, `isPower_power`), and what can be said of the power is read off
the formal root :

* `rootOf_power` and `rootOf_power_of_four_dvd` say of which number a power is a root;
* `exists_root_of_power` and `exists_scalar_of_root` say that a power is a scalar exactly when the
  base has a rational root. Numerator and denominator have no factor in common, so their formal
  roots do not cancel.
-/

namespace Surds

open Surd

variable {b v : Scalar} {e f : Fraction} {q : ℕ} {m : ℤ} {z : Surd}

theorem Fraction.Canonical.neg (he : e.Canonical) : (-e).Canonical :=
  Scalar.canonical_neg (a := .frac e) he

/-- The two powers of a fraction and their product. -/
theorem ofFractionPower_eq_ok_iff : ofFractionPower f e = .ok z ↔ ∃ x y,
    ofIntPower f.num e = .ok x ∧ ofIntPower f.den (-e) = .ok y ∧ x.mul y = .ok z := by
  rw [ofFractionPower_eq_bind, bind_eq_ok_iff]
  refine exists_congr fun x => ?_
  simp only [bind_eq_ok_iff, exists_and_left]

/-- Powers of canonical scalars are canonical surds. -/
theorem canonical_power :
    ∀ {b e : Scalar}, b.Canonical → e.Canonical → power b e = .ok z → z.Canonical
  | b, .whole k, hb, _, h => by
    rw [power_whole] at h
    obtain ⟨v, hv, hz⟩ := bind_eq_ok_iff.1 h
    rw [← Except.ok.inj hz]
    exact Scalar.canonical_pow hb hv
  | .whole n, .frac e, _, he, h => by
    rw [power_whole_frac] at h
    exact (isPower_ofIntPower he h).canonical
  | .frac f, .frac e, _, he, h => by
    rw [power_frac_frac] at h
    obtain ⟨x, y, hx, hy, hmul⟩ := ofFractionPower_eq_ok_iff.1 h
    exact canonical_mul (isPower_ofIntPower he hx).canonical
      (isPower_ofIntPower (Fraction.Canonical.neg he) hy).canonical hmul

/-! ## Roots -/

namespace FormalRoot

/-- The formal `q`-th root of a scalar is that of its numerator over that of its denominator. -/
noncomputable def ofScalar (b : Scalar) (q : ℕ) : FormalRoot where
  coef := (ofInt b.num q).coef / (ofInt b.den q).coef
  exponents := (ofInt b.num q).exponents - (ofInt b.den q).exponents

/-- A root of the numerator makes a root of the scalar, since the denominator is positive. -/
theorem isRoot_ofScalar {q : ℕ} (hq : 0 < q) {a : ℚ}
    (h : IsRoot q a (ofInt b.num q).coef (ofInt b.num q).exponents) :
    IsRoot q (a / b.den) (ofScalar b q).coef (ofScalar b q).exponents := by
  have hden := isRoot_ofInt (n := b.den) hq fun hneg => absurd hneg (Int.natCast_nonneg _).not_gt
  have hroot := h.mul (hden.zpow (-1))
  rwa [zpow_neg_one, zpow_neg_one, neg_one_zsmul, ← div_eq_mul_inv, ← div_eq_mul_inv,
    ← sub_eq_add_neg, Int.cast_natCast] at hroot

/-- The integers in a formal root are radicals of the numerator or the denominator. -/
theorem ofScalar_int (hq : 0 < q) (m : ℤ) : (ofScalar b q).exponents (.int m) = 0 ∨
    ((ofScalar b q).exponents (.int m) = 1 / q ∨ (ofScalar b q).exponents (.int m) = -(1 / q)) ∧
      (Radical b.den q m ∨ Radical b.num q m) := by
  have hsub : (ofScalar b q).exponents (.int m) =
      (ofInt b.num q).exponents (.int m) - (ofInt b.den q).exponents (.int m) := rfl
  rw [hsub]
  rcases ofInt_int (n := b.num) hq m with hnum | ⟨hnum, hrad⟩
  · rcases ofInt_int (n := b.den) hq m with hden | ⟨hden, hrad⟩
    · exact .inl (by rw [hnum, hden, sub_zero])
    · exact .inr ⟨.inr (by rw [hnum, hden, zero_sub]), .inl hrad⟩
  · rcases ofInt_int (n := b.den) hq m with hden | ⟨hden, -⟩
    · exact .inr ⟨.inl (by rw [hnum, hden, sub_zero]), .inr hrad⟩
    · exact .inl (by rw [hnum, hden, sub_self])

/-- The denominator is positive, so only the numerator puts the imaginary unit into the root. -/
theorem ofScalar_imaginary (hq : 0 < q) :
    (ofScalar b q).exponents .imaginary = 0 ∧ ¬ ImaginarySign b.num q ∨
      (ofScalar b q).exponents .imaginary = 1 ∧ ImaginarySign b.num q := by
  have hsub : (ofScalar b q).exponents .imaginary = (ofInt b.num q).exponents .imaginary := by
    show (ofInt b.num q).exponents .imaginary - (ofInt b.den q).exponents .imaginary = _
    rw [ofInt_natCast_imaginary hq, sub_zero]
  rw [hsub]
  exact ofInt_imaginary hq

theorem ofScalar_whole (hq : 0 < q) (n : ℤ) : ofScalar (.whole n) q = ofInt n q := by
  rw [ofScalar, Scalar.num_whole, Scalar.den_whole, Nat.cast_one, ofInt_one hq, div_one, sub_zero]

theorem ofScalar_coef_ne_zero (hb : b.Canonical) (hq : 0 < q) (hnum : b.num ≠ 0) :
    (ofScalar b q).coef ≠ 0 := by
  have hden : (0 : ℤ) < b.den := Int.natCast_pos.2 hb.den_pos
  exact div_ne_zero (ofInt_coef_ne_zero hq hnum) (ofInt_coef_pos hq hden).ne'

theorem ofScalar_coef_pos (hb : b.Canonical) (hq : 0 < q) (hnum : 0 < b.num) :
    0 < (ofScalar b q).coef := by
  have hden : (0 : ℤ) < b.den := Int.natCast_pos.2 hb.den_pos
  exact div_pos (ofInt_coef_pos hq hnum) (ofInt_coef_pos hq hden)

end FormalRoot

/-- The power of exponent `p / q` of a scalar is the `p`-th power of its formal `q`-th root. -/
theorem isPower_power (he : e.Canonical) (h : power b (.frac e) = .ok z) :
    (FormalRoot.ofScalar b e.den).IsPower e.num z := by
  cases b with
  | whole n =>
    rw [power_whole_frac] at h
    rw [FormalRoot.ofScalar_whole he.den_pos]
    exact isPower_ofIntPower he h
  | frac f =>
    rw [power_frac_frac] at h
    obtain ⟨x, y, hx, hy, hmul⟩ := ofFractionPower_eq_ok_iff.1 h
    exact (isPower_ofIntPower he hx).mul_inv (isPower_ofIntPower he.neg hy) hmul

/-- A power is a root, unless the imaginary unit appears in a degree that four divides. -/
theorem rootOf_power (he : e.Canonical)
    (hfour : b.num < 0 → e.den % 4 = 0 → ∀ r : ℕ, r ^ e.den ≠ b.num.natAbs)
    (h : power b (.frac e) = .ok z) : z.RootOf e.den (b.value ^ e.num) := by
  have hroot := FormalRoot.isRoot_ofScalar he.den_pos (FormalRoot.isRoot_ofInt he.den_pos hfour)
  rw [← Rat.mkRat_eq_div] at hroot
  exact ⟨_, _, isPower_power he h, hroot.zpow e.num⟩

/-- The imaginary unit that appears in a degree that four divides takes the sign away. -/
theorem rootOf_power_of_four_dvd (he : e.Canonical) (hneg : b.num < 0) (hfour : e.den % 4 = 0)
    {r : ℕ} (hr : r ^ e.den = b.num.natAbs) (h : power b (.frac e) = .ok z) :
    z.RootOf e.den (-b.value ^ e.num) := by
  have hroot := FormalRoot.isRoot_ofScalar he.den_pos
    (FormalRoot.isRoot_ofInt_of_four_dvd he.den_pos hneg hfour hr)
  rw [neg_div, ← Rat.mkRat_eq_div] at hroot
  have hpow := hroot.zpow e.num
  rw [(he.odd_num (by omega)).neg_zpow] at hpow
  exact ⟨_, _, isPower_power he h, hpow⟩

/-! ## Scalars -/

/-- The formal root of a scalar with a rational root is that root. -/
theorem FormalRoot.ofScalar_of_root (hb : b.Canonical) (hq : 0 < q) {t : ℚ} (ht : t ^ q = b.value)
    (hsign : q % 2 = 0 → 0 ≤ t) : ofScalar b q = ⟨t, 0⟩ := by
  obtain ⟨hnum, hden⟩ := Scalar.pow_num_den hb ht
  rw [ofScalar, ofInt_of_root hq hnum fun heven => Rat.num_nonneg.2 (hsign heven),
    ofInt_of_root hq (by exact_mod_cast hden) fun _ => Int.natCast_nonneg _, sub_zero,
    Int.cast_natCast, Rat.num_div_den]

/-- The power of a base with a rational root is the power of the root. -/
theorem eq_scalar_of_root (hb : b.Canonical) (he : e.Canonical) {t : ℚ} (ht : t ^ e.den = b.value)
    (hsign : e.den % 2 = 0 → 0 ≤ t) (h : power b (.frac e) = .ok z) :
    z = scalar (.ofRat (t ^ e.num)) := by
  have hpower := isPower_power he h
  rw [FormalRoot.ofScalar_of_root hb he.den_pos ht hsign, FormalRoot.IsPower, zsmul_zero] at hpower
  exact hpower.unique (formOf_ofRat _)

/-- A scalar whose base has a rational root has a scalar power. -/
theorem exists_scalar_of_root (hb : b.Canonical) (he : e.Canonical) {t : ℚ}
    (ht : t ^ e.den = b.value) (h : power b (.frac e) = .ok z) : ∃ v, z = scalar v := by
  obtain ⟨s, hs, hsign⟩ := Scalar.exists_nonneg_root ht
  exact ⟨_, eq_scalar_of_root hb he hs hsign h⟩

/-! ## What a power keeps -/

/-- What rests of a numerator times `1 / q` or its opposite has the denominator `q`. -/
theorem den_rest_radical (he : e.Canonical) {r : ℚ} (hm : m ≠ 1)
    (hr : r = 1 / e.den ∨ r = -(1 / e.den)) : ((Base.int m).rest (e.num • r)).den = e.den := by
  have hden : (Scalar.frac e).value.den = e.den := Scalar.Canonical.den_value (a := .frac e) he
  rw [Base.rest_int _ hm, ← Int.self_sub_floor, Rat.sub_intCast_den, zsmul_eq_mul]
  rcases hr with rfl | rfl
  · rw [mul_one_div, ← he.value_eq_div, hden]
  · rw [mul_neg, mul_one_div, ← he.value_eq_div, Rat.den_neg_eq_den, hden]

/-- The exponents that a power of a formal root keeps are the rests of its own. -/
theorem FormalRoot.IsPower.toFinsupp {p : ℤ} (hb : b.Canonical) (hq : 0 < q)
    (h : (ofScalar b q).IsPower p z) (c : Base) :
    z.powers.toFinsupp c = c.rest (p • (ofScalar b q).exponents c) := by
  by_cases hb0 : b = 0
  · have hroot : (0 : ℚ) ^ q = b.value := by
      rw [zero_pow hq.ne', hb0, Scalar.value_zero]
    rw [ofScalar_of_root hb hq hroot fun _ => le_rfl] at h ⊢
    rw [IsPower, zsmul_zero] at h
    rw [h.unique (formOf_ofRat _), Finsupp.zero_apply, zsmul_zero, Base.rest_zero]
    rfl
  · have hcoef := ofScalar_coef_ne_zero hb hq (mt hb.num_eq_zero_iff.1 hb0)
    exact h.powers (zpow_ne_zero _ hcoef) c

theorem toFinsupp_power (hb : b.Canonical) (he : e.Canonical) (h : power b (.frac e) = .ok z)
    (c : Base) :
    z.powers.toFinsupp c = c.rest (e.num • (FormalRoot.ofScalar b e.den).exponents c) :=
  (isPower_power he h).toFinsupp hb he.den_pos c

/-- Nothing occurs in the formal root of a base that has a scalar power. -/
theorem exponents_eq_zero_of_scalar (hb : b.Canonical) (he : e.Canonical)
    (h : power b (.frac e) = .ok (scalar v)) : (FormalRoot.ofScalar b e.den).exponents = 0 := by
  have hrest : ∀ c : Base, c.rest (e.num • (FormalRoot.ofScalar b e.den).exponents c) = 0 :=
    fun c => (toFinsupp_power hb he h c).symm
  ext c
  cases c with
  | imaginary =>
    rcases FormalRoot.ofScalar_imaginary (b := b) he.den_pos with ⟨hzero, -⟩ | ⟨hone, hsign⟩
    · exact hzero
    · have hodd : e.num % 2 = 1 := Int.odd_iff.1 (he.odd_num hsign.2.1)
      have himag := hrest .imaginary
      rw [hone, zsmul_one, Base.rest_imaginary, hodd, Int.cast_one] at himag
      exact absurd himag one_ne_zero
  | int m =>
    rcases FormalRoot.ofScalar_int (b := b) he.den_pos m with hzero | ⟨hexp, hrad⟩
    · exact hzero
    · have hden := den_rest_radical he (hrad.elim (·.ne_one) (·.ne_one)) hexp
      rw [hrest] at hden
      exact absurd hden he.1.ne

/-- What stands under a radical of the numerator does not stand under one of the denominator. -/
theorem Radical.not_radical_den (hb : b.Canonical) (hnum : Radical b.num q m) :
    ¬ Radical b.den q m := by
  intro hden
  have hnat : m.natAbs = b.den := hden.natAbs_eq
  have hcop := hb.coprime
  rw [← hnum.natAbs_eq, hnat, Nat.coprime_self] at hcop
  exact hden.no_root 1 (by rw [one_pow, hnat, hcop])

/-- Numerator and denominator have no factor in common, so their formal roots cancel only if nothing
occurs in either of them. -/
theorem FormalRoot.exponents_eq_zero_of_ofScalar (hb : b.Canonical) (hq : 0 < q)
    (h : (ofScalar b q).exponents = 0) :
    (ofInt b.num q).exponents = 0 ∧ (ofInt b.den q).exponents = 0 := by
  have heq : (ofInt b.num q).exponents = (ofInt b.den q).exponents := sub_eq_zero.1 h
  have hden : (ofInt b.den q).exponents = 0 := by
    ext c
    cases c with
    | imaginary => exact ofInt_natCast_imaginary hq b.den
    | int m =>
      rcases ofInt_int (n := b.den) hq m with hzero | ⟨-, hrad⟩
      · exact hzero
      · rcases ofInt_int (n := b.num) hq m with hzero | ⟨-, hrad'⟩
        · rw [← heq]
          exact hzero
        · exact absurd hrad (hrad'.not_radical_den hb)
  exact ⟨heq.trans hden, hden⟩

/-- A scalar power is the power of a rational root, which is not negative if the degree is even. -/
theorem exists_root_of_power (hb : b.Canonical) (he : e.Canonical)
    (h : power b (.frac e) = .ok (scalar v)) :
    ∃ t : ℚ, t ^ e.den = b.value ∧ (e.den % 2 = 0 → 0 ≤ t) ∧ v = .ofRat (t ^ e.num) := by
  obtain ⟨hnum, hden⟩ := FormalRoot.exponents_eq_zero_of_ofScalar hb he.den_pos
    (exponents_eq_zero_of_scalar hb he h)
  obtain ⟨t, ht, htsign⟩ := FormalRoot.exists_root_of_exponents he.den_pos hnum
  obtain ⟨u, hu, husign⟩ := FormalRoot.exists_root_of_exponents he.den_pos hden
  have hroot : ((t : ℚ) / u) ^ e.den = b.value := by
    rw [div_pow, ← Int.cast_pow, ← Int.cast_pow, ht, hu, Scalar.value, Rat.mkRat_eq_div]
    rfl
  have hsign : e.den % 2 = 0 → 0 ≤ (t : ℚ) / u := fun heven =>
    div_nonneg (Int.cast_nonneg (htsign heven)) (Int.cast_nonneg (husign heven))
  exact ⟨t / u, hroot, hsign, scalar.inj (eq_scalar_of_root hb he hroot hsign h)⟩

end Surds
