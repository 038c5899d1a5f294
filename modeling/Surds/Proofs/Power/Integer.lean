import Surds.Power
import Surds.Proofs.Power.FormalRoot

/-!
# Powers of integers

A power of exponent `p / q` of an integer is the `p`-th power of the formal `q`-th root of the
integer (`isPower_ofIntPower`). The degree is the denominator of a canonical exponent and so not
zero, and there is a root of this degree or none (`ofIntPower_eq_match`). Of an exact root the power
itself is taken (`isPower_ofExactRoot`).
Of any other root the exponent is split into its floor and what rests, which is what carrying does
with the `p`-th power of the formal root (`isPower_residualPowers`).
-/

namespace Surds

open Surd

variable {n : ℤ} {e : Fraction} {v : Scalar} {x : Surd}

/-- A fraction with even denominator in lowest terms has an odd numerator. -/
theorem Fraction.Canonical.odd_num (he : e.Canonical) (heven : e.den % 2 = 0) : Odd e.num := by
  refine Int.not_even_iff_odd.1 fun hnum => ?_
  have hdvd : 2 ∣ Nat.gcd e.num.natAbs e.den :=
    Nat.dvd_gcd (Int.natAbs_dvd_natAbs.2 hnum.two_dvd) (Nat.dvd_of_mod_eq_zero heven)
  rw [he.2] at hdvd
  omega

theorem Fraction.Canonical.value_eq_div (he : e.Canonical) :
    (Scalar.frac e).value = e.num / e.den :=
  Scalar.Canonical.value_eq_div (a := .frac e) he

/-! ## Exact roots -/

/-- The power of an exact root with the sign of the integer is a scalar. -/
theorem isPower_intPow (he : e.Canonical) {t : ℤ} (ht : t ^ e.den = n)
    (hsign : e.den % 2 = 0 → 0 ≤ t) (hv : intPow t e.num = .ok v) :
    (FormalRoot.ofInt n e.den).IsPower e.num (scalar v) := by
  rw [FormalRoot.ofInt_of_root he.den_pos ht hsign, eq_ofRat_of_intPow hv, FormalRoot.IsPower,
    smul_zero]
  exact formOf_ofRat _

theorem isPower_ofExactRoot (he : e.Canonical) {r : ℕ} (hr : r ^ e.den = n.natAbs)
    (h : ofExactRoot (n < 0) r e.num e.den = .ok x) :
    (FormalRoot.ofInt n e.den).IsPower e.num x := by
  rw [ofExactRoot_eq_ite] at h
  split_ifs at h with hn heven
  · simp only [Bool.not_eq_true', decide_eq_false_iff_not, not_lt] at hn
    obtain ⟨v, hv, hx⟩ := bind_eq_ok_iff.1 h
    rw [← Except.ok.inj hx]
    refine isPower_intPow he ?_ (fun _ => Int.natCast_nonneg r) hv
    rw [← Nat.cast_pow, hr, Int.natAbs_of_nonneg hn]
  · simp only [Bool.not_eq_true', decide_eq_false_iff_not, not_lt, not_le] at hn
    obtain ⟨v, hv, h⟩ := bind_eq_ok_iff.1 h
    obtain ⟨y, hy, hmul⟩ := bind_eq_ok_iff.1 h
    rw [eq_ofRat_of_intPow hv] at hmul
    have hform := (formOf_imaginaryPower hy).mul (formOf_ofRat _) hmul
    rw [one_mul, add_zero, Int.cast_natCast] at hform
    rw [FormalRoot.ofInt_of_imaginary he.den_pos hn heven hr, FormalRoot.IsPower,
      Finsupp.smul_single, zsmul_one]
    exact hform
  · simp only [Bool.not_eq_true', decide_eq_false_iff_not, not_lt, not_le] at hn
    obtain ⟨v, hv, hx⟩ := bind_eq_ok_iff.1 h
    have hodd : Odd e.den := Nat.not_even_iff_odd.1 fun hev => heven (Nat.even_iff.1 hev)
    rw [← Except.ok.inj hx]
    refine isPower_intPow he ?_ (fun hev => absurd hev heven) hv
    rw [hodd.neg_pow, ← Nat.cast_pow, hr]
    omega

/-! ## Other roots -/

theorem rest_single (b c : Base) (r : ℚ) :
    Finsupp.single b (b.rest r) c = c.rest (Finsupp.single b r c) := by
  by_cases hc : c = b
  · rw [hc, Finsupp.single_eq_same, Finsupp.single_eq_same]
  · rw [Finsupp.single_eq_of_ne hc, Finsupp.single_eq_of_ne hc, Base.rest_zero]

theorem rest_single_add_single {a b : Base} (h : a ≠ b) (r s : ℚ) (c : Base) :
    (Finsupp.single a (a.rest r) + Finsupp.single b (b.rest s)) c =
      c.rest ((Finsupp.single a r + Finsupp.single b s) c) := by
  rw [Finsupp.add_apply, Finsupp.add_apply, rest_single, rest_single]
  by_cases hc : c = a
  · rw [hc, Finsupp.single_eq_of_ne h, Base.rest_zero, add_zero, add_zero]
  · rw [Finsupp.single_eq_of_ne hc, Base.rest_zero, zero_add, zero_add]

theorem prod_carry_single_add_single {a b : Base} (h : a ≠ b) (r s : ℚ) :
    (Finsupp.single a r + Finsupp.single b s).prod Base.carry = a.carry r * b.carry s := by
  have hdisj : Disjoint (Finsupp.single a r).support (Finsupp.single b s).support := by
    refine Finset.disjoint_left.2 fun c ha hb => h ?_
    rw [← Finset.mem_singleton.1 (Finsupp.support_single_subset ha),
      Finset.mem_singleton.1 (Finsupp.support_single_subset hb)]
  rw [Finsupp.prod_add_index_of_disjoint hdisj, Finsupp.prod_single_index a.carry_zero,
    Finsupp.prod_single_index b.carry_zero]

/-- The square root of a negative integer, whose sign goes into the imaginary unit. -/
theorem isPower_square (he : e.Canonical) (hneg : n < 0) (hden : e.den = 2)
    (hnone : ∀ r : ℕ, r ^ e.den ≠ n.natAbs) (h : FormOf ((n : ℚ) ^ e.floor)
      (Finsupp.single .imaginary 1 +
        Finsupp.single (.int n.natAbs) (Int.fract (Scalar.frac e).value)) x) :
    (FormalRoot.ofInt n e.den).IsPower e.num x := by
  have hne : Base.imaginary ≠ .int n.natAbs := nofun
  have hne0 : (n.natAbs : ℤ) ≠ 0 := by omega
  have hne1 : (n.natAbs : ℤ) ≠ 1 := ne_one_of_no_root hnone
  have hodd : e.num % 2 = 1 := Int.odd_iff.1 (he.odd_num (by rw [hden]))
  have hhalf : (e.num : ℚ) * (1 / 2) = (Scalar.frac e).value := by
    rw [he.value_eq_div, hden, mul_one_div, Nat.cast_ofNat]
  have hcarry : (n : ℚ) ^ e.floor = 1 * (Base.imaginary.carry e.num *
      (Base.int n.natAbs).carry (Scalar.frac e).value) := by
    have hfloor : e.num / 2 = e.floor := by rw [Fraction.floor, hden, Nat.cast_ofNat]
    rw [Base.carry_int, ← Fraction.floor_eq, Base.carry, Base.floor_div_two, hfloor, ← mul_zpow,
      one_mul, Base.turn, Int.ofNat_natAbs_of_nonpos hneg.le, Int.cast_neg, neg_mul_neg, one_mul]
  rw [hcarry, ← prod_carry_single_add_single hne, ← Base.rest_int _ hne1] at h
  rw [FormalRoot.ofInt_of_square hneg hden hnone]
  show FormOf (1 ^ e.num) (e.num • (Finsupp.single .imaginary 1 + Finsupp.single _ (1 / 2))) x
  rw [one_zpow, zsmul_add, Finsupp.smul_single, Finsupp.smul_single, zsmul_one, zsmul_eq_mul, hhalf]
  refine h.of_rest ?_ fun b => ?_
  · exact (regular_single (Base.regular_imaginary _)).add
      (regular_single (Base.regular_int hne0 _))
  · rw [← rest_single_add_single hne, Base.rest_imaginary, hodd, Int.cast_one]

/-- A root of the integer itself. -/
theorem isPower_radical (he : e.Canonical) (hdegree : n < 0 → e.den ≠ 2)
    (hnone : ∀ r : ℕ, r ^ e.den ≠ n.natAbs) (h : FormOf ((n : ℚ) ^ e.floor)
      (Finsupp.single (.int n) (Int.fract (Scalar.frac e).value)) x) :
    (FormalRoot.ofInt n e.den).IsPower e.num x := by
  have hn := ne_zero_of_no_root he.den_pos hnone
  have hcarry : (n : ℚ) ^ e.floor = 1 * (Base.int n).carry (Scalar.frac e).value := by
    rw [one_mul, Base.carry_int, Fraction.floor_eq]
  rw [hcarry, ← Finsupp.prod_single_index (Base.carry_zero _),
    ← Base.rest_int _ (ne_one_of_no_root hnone)] at h
  rw [FormalRoot.ofInt_of_radical he.den_pos hdegree hnone]
  show FormOf (1 ^ e.num) (e.num • Finsupp.single _ (1 / (e.den : ℚ))) x
  rw [one_zpow, Finsupp.smul_single, zsmul_eq_mul, mul_one_div, ← he.value_eq_div]
  exact h.of_rest (regular_single (Base.regular_int hn _)) fun b => rest_single _ _ _

/-- No integer without an exact root has the magnitude one, so the root of the magnitude stays. -/
theorem residualPowers_of_square (hsq : n < 0 ∧ e.den = 2)
    (hnone : ∀ r : ℕ, r ^ e.den ≠ n.natAbs) : residualPowers n e =
      (Exponents.single .imaginary 1).insert (.int n.natAbs) (.frac e.fractionalPart) := by
  have hone : n.natAbs ≠ 1 := fun h => hnone 1 (by rw [one_pow, h])
  rw [residualPowers_eq_ite, if_pos hsq, if_neg hone]

theorem residualPowers_of_radical (hsq : ¬ (n < 0 ∧ e.den = 2)) :
    residualPowers n e = .single (.int n) (.frac e.fractionalPart) := by
  rw [residualPowers_eq_ite, if_neg hsq]

theorem canonical_residualPowers (n : ℤ) (he : e.Canonical) :
    (residualPowers n e).Canonical := by
  have hfrac : (Scalar.frac e.fractionalPart).Canonical := he.fractionalPart.1
  rw [residualPowers_eq_ite]
  split_ifs
  · exact Exponents.canonical_single Scalar.canonical_one
  · exact (Exponents.canonical_single Scalar.canonical_one).insert hfrac
  · exact Exponents.canonical_single hfrac

theorem isPower_residualPowers (he : e.Canonical) (hnone : ∀ r : ℕ, r ^ e.den ≠ n.natAbs)
    (hv : intPow n e.floor = .ok v) (h : ofPowers v (residualPowers n e) = .ok x) :
    (FormalRoot.ofInt n e.den).IsPower e.num x := by
  have hn := ne_zero_of_no_root he.den_pos hnone
  have hfrac : (Scalar.frac e.fractionalPart).Canonical := he.fractionalPart.1
  have hval := Fraction.value_fractionalPart he
  rw [eq_ofRat_of_intPow hv] at h
  by_cases hsq : n < 0 ∧ e.den = 2
  · rw [residualPowers_of_square hsq hnone] at h
    have hsum : ((Exponents.single .imaginary 1).insert (.int n.natAbs)
        (.frac e.fractionalPart)).toFinsupp = Finsupp.single .imaginary 1 +
          Finsupp.single (.int n.natAbs) (Int.fract (Scalar.frac e).value) := by
      rw [Exponents.toFinsupp_insert rfl, Exponents.toFinsupp_single, hval, Scalar.value_one]
    have hreg : Regular (Finsupp.single .imaginary 1 +
        Finsupp.single (.int n.natAbs) (Int.fract (Scalar.frac e).value)) :=
      (regular_single Base.regular_imaginary_one).add
        (regular_single (Base.regular_int (by omega) _))
    have hform := formOf_ofPowers (Scalar.canonical_ofRat _)
      ((Exponents.canonical_single Scalar.canonical_one).insert hfrac) (hsum ▸ hreg) h
    rw [hsum, Scalar.value_ofRat] at hform
    exact isPower_square he hsq.1 hsq.2 hnone hform
  · rw [residualPowers_of_radical hsq] at h
    have hform := formOf_ofPowers (Scalar.canonical_ofRat _) (Exponents.canonical_single hfrac)
      (by rw [Exponents.toFinsupp_single]; exact regular_single (Base.regular_int hn _)) h
    rw [Exponents.toFinsupp_single, hval, Scalar.value_ofRat] at hform
    exact isPower_radical he (not_and.1 hsq) hnone hform

/-- A degree that is the denominator of a canonical fraction is not zero, so there is a search for a
root of this degree. -/
theorem ofIntPower_eq_match (hden : 0 < e.den) (n : ℤ) : ofIntPower n e =
    withinLimit e.den >>= fun _ =>
      match exactRoot? e.den n.natAbs with
      | some r => ofExactRoot (n < 0) r e.num e.den
      | none => intPow n e.floor >>= fun c => ofPowers c (residualPowers n e) := by
  rw [ofIntPower_eq_bind]
  cases hdegree : withinLimit e.den with
  | error w => rfl
  | ok degree =>
    obtain rfl := (withinLimit_eq_ok_iff.1 hdegree).2
    show intRoot? e.den n.natAbs >>= _ = _
    rw [intRoot?_natCast hden]
    cases exactRoot? e.den n.natAbs <;> rfl

/-- The power of exponent `p / q` of an integer is the `p`-th power of its formal `q`-th root. -/
theorem isPower_ofIntPower (he : e.Canonical) (h : ofIntPower n e = .ok x) :
    (FormalRoot.ofInt n e.den).IsPower e.num x := by
  rw [ofIntPower_eq_match he.den_pos] at h
  obtain ⟨-, -, h⟩ := bind_eq_ok_iff.1 h
  cases hr : exactRoot? e.den n.natAbs with
  | some r =>
    rw [hr] at h
    exact isPower_ofExactRoot he ((exactRoot?_eq_some_iff he.den_pos).1 hr) h
  | none =>
    rw [hr] at h
    obtain ⟨v, hv, h⟩ := bind_eq_ok_iff.1 h
    exact isPower_residualPowers he ((exactRoot?_eq_none_iff he.den_pos).1 hr) hv h

end Surds
