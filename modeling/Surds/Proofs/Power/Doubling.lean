import Mathlib.Data.Nat.Prime.Basic
import Surds.Proofs.Power.Addition
import Surds.Proofs.Power.Copies
import Surds.Proofs.Power.Shape

/-!
# Doubling the exponent

The square of a power is a surd with doubled exponents, while the power of twice the exponent looks
for roots of half the degree. For an odd degree the degree stays, and for square roots the power is
whole : then the two are the same. For any other even degree they differ in two cases, since a
product adds exponents and takes no roots. A part of the base may have an exact root of half the
degree and none of the degree itself (`RootAppears`) : the fourth root of four is kept, and its
square is the square root of four, kept as such, and not two (`mul_self_fourth_root_of_four`). And
halving the degree four of a negative base makes a square root, which moves the sign into the
imaginary unit.

In all other cases the square is the power of twice the exponent (`power_mul_self_iff`), as the
`2 * p`-th power of a formal root of degree `2 * h` is the `p`-th power of that of degree `h`
(`isPower_two_mul`). Bases that lose their sign (`LosesSign`) are taken by themselves : there the
two are never the same (`mul_self_ne_of_losesSign`).
-/

namespace Surds

open Surd

variable {b : Scalar} {e : Fraction} {n m p : ℤ} {h q : ℕ} {w x y z : Surd}

/-- Halving the even degree `q` makes a root of `c` exact that was not. -/
def RootAppears (c q : ℕ) : Prop :=
  2 < q ∧ q % 2 = 0 ∧ (∃ s : ℕ, s ^ (q / 2) = c) ∧ ∀ r : ℕ, r ^ q ≠ c

/-! ## Twice an exponent -/

/-- An odd denominator stays when the exponent is doubled. -/
theorem Fraction.Canonical.two_mul_of_odd (he : e.Canonical) (hodd : e.den % 2 = 1) :
    Scalar.whole 2 * .frac e = .frac ⟨2 * e.num, e.den⟩ := by
  have hcop : (2 * e.num).natAbs.Coprime e.den := by
    rw [Int.natAbs_mul]
    exact Nat.Coprime.mul_left (Nat.coprime_two_left.2 (Nat.odd_iff.2 hodd)) he.2
  have hcan : (Scalar.frac ⟨2 * e.num, e.den⟩).Canonical := ⟨he.1, hcop⟩
  refine (Scalar.canonical_mul (b := .frac e) (Scalar.canonical_whole 2) he).ext hcan ?_
  rw [Scalar.value_mul (b := .frac e) (Scalar.canonical_whole 2) he, he.value_eq_div,
    hcan.value_eq_div, Scalar.value_whole, mul_div_assoc', Scalar.num_frac, Scalar.den_frac,
    Int.cast_mul]

theorem Fraction.Canonical.coprime_half (he : e.Canonical) (hh : e.den = 2 * h) :
    e.num.natAbs.Coprime h :=
  Nat.Coprime.coprime_dvd_right (Dvd.intro_left 2 hh.symm) he.2

/-- An even denominator is halved when the exponent is doubled. -/
theorem Fraction.Canonical.two_mul_of_even (he : e.Canonical) (hh : e.den = 2 * h) :
    Scalar.whole 2 * .frac e = .ofReduced e.num h := by
  have hpos : 0 < h := by
    have := he.den_pos
    omega
  refine (Scalar.canonical_mul (b := .frac e) (Scalar.canonical_whole 2) he).ext
    (Scalar.canonical_ofReduced hpos (he.coprime_half hh)) ?_
  have hh0 : (h : ℚ) ≠ 0 := Nat.cast_ne_zero.2 hpos.ne'
  rw [Scalar.value_mul (b := .frac e) (Scalar.canonical_whole 2) he, he.value_eq_div,
    Scalar.value_whole, Scalar.value_ofReduced, Rat.mkRat_eq_div, hh]
  push_cast
  field_simp

/-- An exponent of even denominator other than two is doubled by halving the denominator. -/
theorem Fraction.Canonical.exists_half (he : e.Canonical) (heven : e.den % 2 = 0)
    (htwo : e.den ≠ 2) : ∃ h, 2 ≤ h ∧ e.den = 2 * h ∧ Fraction.Canonical ⟨e.num, h⟩ ∧
      Scalar.whole 2 * .frac e = .frac ⟨e.num, h⟩ := by
  obtain ⟨h, hh⟩ : ∃ h, e.den = 2 * h := ⟨e.den / 2, by omega⟩
  have hh2 : 2 ≤ h := by
    have := he.1
    omega
  have hdouble := he.two_mul_of_even hh
  rw [Scalar.ofReduced_eq_ite, if_neg (by omega)] at hdouble
  exact ⟨h, hh2, hh, ⟨hh2, he.coprime_half hh⟩, hdouble⟩

/-! ## Formal roots of half the degree -/

/-- Squaring a power doubles its exponent. -/
theorem FormalRoot.IsPower.mul_self {t : FormalRoot} (hz : t.IsPower p z) (hy : z.mul z = .ok y) :
    t.IsPower (2 * p) y := by
  have hform := FormOf.mul hz hz hy
  rwa [FormalRoot.IsPower, zpow_mul', zpow_two, two_mul, add_zsmul]

/-- The square of an exact root beside the imaginary unit is negative. -/
theorem isPower_two_mul_imaginary (r : ℕ) (p : ℤ) :
    FormalRoot.IsPower ⟨r, .single .imaginary 1⟩ (2 * p)
      (scalar (.ofRat ((-(r : ℚ) ^ 2) ^ p))) := by
  have hroot := FormalRoot.isRoot_imaginary (n := (r ^ 2 : ℕ)) (q := 2) (r := r) (m := 1)
    (Int.natAbs_natCast _).symm rfl
  have hvalue : (((r ^ 2 : ℕ) : ℤ).natAbs : ℚ) * (-1) ^ 1 = -(r : ℚ) ^ 2 := by
    rw [Int.natAbs_natCast, Nat.cast_pow, pow_one, mul_neg_one]
  rw [hvalue] at hroot
  have hform := formOf_pow_of_isRoot (hroot.zpow p)
  rwa [FormalRoot.IsPower, zpow_mul', zpow_ofNat, mul_zsmul, ofNat_zsmul]

/-- An odd root of a negative integer is the opposite of a square, of which the imaginary unit is
taken beside the root of twice the degree. -/
theorem isPower_two_mul_of_neg {r : ℕ} (hodd : Odd h) (hneg : n < 0) (hr : r ^ (2 * h) = n.natAbs)
    (hx : (FormalRoot.ofInt n h).IsPower p x) : (FormalRoot.ofInt n (2 * h)).IsPower (2 * p) x := by
  have hpos : 0 < h := hodd.pos
  have ht : (-(r : ℤ) ^ 2) ^ h = n := by
    have hsq : (r ^ 2) ^ h = n.natAbs := by rw [← pow_mul, hr]
    rw [hodd.neg_pow, ← Nat.cast_pow, ← Nat.cast_pow, hsq]
    omega
  rw [FormalRoot.ofInt_of_root hpos ht fun heven => absurd hodd (Nat.not_odd_iff.2 heven),
    FormalRoot.IsPower, zsmul_zero] at hx
  rw [FormalRoot.ofInt_of_imaginary (by omega) hneg (Nat.mul_mod_right 2 h) hr,
    hx.unique (formOf_ofRat _)]
  push_cast
  exact isPower_two_mul_imaginary r p

/-- An exact root of degree `h` is the square of that of degree `2 * h`. -/
theorem isPower_two_mul_of_nonneg {r : ℕ} (hpos : 0 < h) (hn : 0 ≤ n) (hr : r ^ (2 * h) = n.natAbs)
    (hx : (FormalRoot.ofInt n h).IsPower p x) : (FormalRoot.ofInt n (2 * h)).IsPower (2 * p) x := by
  have ht : (r : ℤ) ^ (2 * h) = n := by
    rw [← Nat.cast_pow, hr]
    omega
  have hsq : ((r : ℤ) ^ 2) ^ h = n := by rw [← pow_mul, ht]
  rw [FormalRoot.ofInt_of_root hpos hsq fun _ => sq_nonneg _, FormalRoot.IsPower, zsmul_zero] at hx
  rw [FormalRoot.ofInt_of_root (by omega) ht fun _ => Int.natCast_nonneg r, FormalRoot.IsPower,
    zsmul_zero, zpow_mul, zpow_ofNat, ← Int.cast_pow]
  exact hx

/-- A radical of degree `h` is the square of that of degree `2 * h`. -/
theorem isPower_two_mul_of_radical (hpos : 0 < h) (hsign : n < 0 → h ≠ 2)
    (hnone : ∀ s : ℕ, s ^ h ≠ n.natAbs) (hx : (FormalRoot.ofInt n h).IsPower p x) :
    (FormalRoot.ofInt n (2 * h)).IsPower (2 * p) x := by
  have hdegree : 2 * h ≠ 2 := by
    have hone : h ≠ 1 := fun hone => hnone n.natAbs (by rw [hone, pow_one])
    omega
  have hnone2 : ∀ r : ℕ, r ^ (2 * h) ≠ n.natAbs := fun r => by
    rw [pow_mul]
    exact hnone (r ^ 2)
  have hh0 : (h : ℚ) ≠ 0 := Nat.cast_ne_zero.2 hpos.ne'
  have hhalf : (2 * p) • (1 / ((2 * h : ℕ) : ℚ)) = p • (1 / (h : ℚ)) := by
    rw [zsmul_eq_mul, zsmul_eq_mul]
    push_cast
    field_simp
  rw [FormalRoot.ofInt_of_radical hpos hsign hnone, FormalRoot.IsPower, one_zpow,
    Finsupp.smul_single] at hx
  rw [FormalRoot.ofInt_of_radical (by omega) (fun _ => hdegree) hnone2, FormalRoot.IsPower,
    one_zpow, Finsupp.smul_single, hhalf]
  exact hx

/-- The `p`-th power of the formal root of degree `h` is the `2 * p`-th power of that of degree
`2 * h`, when both roots have one shape. -/
theorem isPower_two_mul (hpos : 0 < h)
    (hroot : (∃ s : ℕ, s ^ h = n.natAbs) → ∃ r : ℕ, r ^ (2 * h) = n.natAbs)
    (hsign : n < 0 → h ≠ 2) (hkept : n < 0 → h % 2 = 0 → ∀ r : ℕ, r ^ (2 * h) ≠ n.natAbs)
    (hx : (FormalRoot.ofInt n h).IsPower p x) : (FormalRoot.ofInt n (2 * h)).IsPower (2 * p) x := by
  rcases Classical.em (∃ s : ℕ, s ^ h = n.natAbs) with hexact | hnone
  · obtain ⟨r, hr⟩ := hroot hexact
    rcases lt_or_ge n 0 with hneg | hn
    · have hodd : Odd h := Nat.odd_iff.2 (Nat.mod_two_ne_zero.1 fun heven => hkept hneg heven r hr)
      exact isPower_two_mul_of_neg hodd hneg hr hx
    · exact isPower_two_mul_of_nonneg hpos hn hr hx
  · exact isPower_two_mul_of_radical hpos hsign (not_exists.1 hnone) hx

theorem exists_root_of_not_appears {c : ℕ} (hh : 2 ≤ h) (hc : ¬ RootAppears c (2 * h)) :
    (∃ s : ℕ, s ^ h = c) → ∃ r : ℕ, r ^ (2 * h) = c := by
  intro hs
  by_contra hnone
  rw [← Nat.mul_div_cancel_left h two_pos] at hs
  exact hc ⟨by omega, Nat.mul_mod_right 2 h, hs, not_exists.1 hnone⟩

/-- The power of half the degree is a power of the formal root of degree `2 * h`, when halving the
degree makes nothing appear. -/
theorem isPower_two_mul_of_power (hh : 2 ≤ h) (he : Fraction.Canonical ⟨p, h⟩)
    (hnum : ¬ RootAppears b.num.natAbs (2 * h)) (hden : ¬ RootAppears b.den (2 * h))
    (hsign : b.num < 0 → h ≠ 2)
    (hkept : b.num < 0 → h % 2 = 0 → ∀ r : ℕ, r ^ (2 * h) ≠ b.num.natAbs)
    (hw : power b (.frac ⟨p, h⟩) = .ok w) :
    (FormalRoot.ofScalar b (2 * h)).IsPower (2 * p) w := by
  have hnumroot := exists_root_of_not_appears hh hnum
  cases b with
  | whole n =>
    rw [FormalRoot.ofScalar_whole (by omega)]
    exact isPower_two_mul he.den_pos hnumroot hsign hkept (isPower_ofIntPower he hw)
  | frac f =>
    obtain ⟨x, y, hx, hy, hmul⟩ := ofFractionPower_eq_ok_iff.1 hw
    have hdenroot := exists_root_of_not_appears hh hden
    have hnonneg : ¬ (f.den : ℤ) < 0 := (Int.natCast_nonneg f.den).not_gt
    have hpowx := isPower_two_mul he.den_pos hnumroot hsign hkept (isPower_ofIntPower he hx)
    have hpowy := isPower_two_mul (n := f.den) (h := h) (by omega) (by rwa [Int.natAbs_natCast])
      (fun hneg => absurd hneg hnonneg) (fun hneg => absurd hneg hnonneg)
      (isPower_ofIntPower he.neg hy)
    rw [Fraction.num_neg, mul_neg] at hpowy
    exact hpowx.mul_inv hpowy hmul

/-! ## What halving the degree makes appear -/

/-- Nothing is kept of an integer that has an exact root. -/
theorem FormalRoot.ofScalar_int_of_root (hq : 0 < q) {m : ℤ} {s : ℕ} (hs : s ^ q = m.natAbs) :
    (ofScalar b q).exponents (.int m) = 0 := by
  rcases ofScalar_int (b := b) hq m with hzero | ⟨-, hrad | hrad⟩
  · exact hzero
  · exact absurd hs (hrad.no_root s)
  · exact absurd hs (hrad.no_root s)

/-- A numerator or denominator without an exact root stands under a radical. -/
theorem FormalRoot.ofScalar_int_of_no_root (hb : b.Canonical) (hq : 2 < q) {m : ℤ}
    (hm : m = b.num ∨ m = b.den) (hnone : ∀ r : ℕ, r ^ q ≠ m.natAbs) :
    (ofScalar b q).exponents (.int m) = 1 / q ∨ (ofScalar b q).exponents (.int m) = -(1 / q) := by
  have hpos : 0 < q := by omega
  have hsub : (ofScalar b q).exponents (.int m) =
      (ofInt b.num q).exponents (.int m) - (ofInt b.den q).exponents (.int m) := rfl
  have hself : (ofInt m q).exponents (.int m) = 1 / q := by
    rw [ofInt_of_radical hpos (fun _ => hq.ne') hnone, Finsupp.single_eq_same]
  rw [hsub]
  rcases hm with rfl | rfl
  · rcases ofInt_int (n := b.den) hpos b.num with hzero | ⟨-, hrad⟩
    · exact .inl (by rw [hself, hzero, sub_zero])
    · exact absurd hrad (Radical.not_radical_den hb ⟨.inr rfl, hnone, fun hneg => ⟨hneg, hq.ne'⟩⟩)
  · rcases ofInt_int (n := b.num) hpos b.den with hzero | ⟨-, hrad⟩
    · exact .inr (by rw [hself, hzero, zero_sub])
    · exact absurd ⟨.inr rfl, hnone, fun hneg => absurd hneg (Int.natCast_nonneg _).not_gt⟩
        (hrad.not_radical_den hb)

/-- The square keeps a radical of which the power of half the degree has taken the root. -/
theorem ne_of_rootAppears (hb : b.Canonical) (he : Fraction.Canonical ⟨p, h⟩) {m : ℤ}
    (hy : (FormalRoot.ofScalar b (2 * h)).IsPower (2 * p) y)
    (hw : power b (.frac ⟨p, h⟩) = .ok w) (hm : m = b.num ∨ m = b.den)
    (happ : RootAppears m.natAbs (2 * h)) : y ≠ w := by
  obtain ⟨hq, -, ⟨s, hs⟩, hnone⟩ := happ
  rw [Nat.mul_div_cancel_left h two_pos] at hs
  have hpos : 0 < 2 * h := by omega
  have hhalf : 2 * (1 / ((2 * h : ℕ) : ℚ)) = 1 / (h : ℚ) := by
    push_cast
    field_simp
  have hexp := FormalRoot.ofScalar_int_of_no_root hb hq hm hnone
  have hrest := hy.toFinsupp hb hpos (.int m)
  generalize (FormalRoot.ofScalar b (2 * h)).exponents (.int m) = t at hexp hrest
  have htwice : 2 * t = 1 / h ∨ 2 * t = -(1 / h) := by
    refine hexp.imp (fun ht => ?_) fun ht => ?_
    · rw [ht, hhalf]
    · rw [ht, mul_neg, hhalf]
  have hden := den_rest_radical he (ne_one_of_no_root hnone) htwice
  have hsmul : (2 * p) • t = p • (2 * t) := by
    rw [zsmul_eq_mul, zsmul_eq_mul, Int.cast_mul, Int.cast_ofNat, mul_assoc, mul_left_comm]
  rintro rfl
  rw [toFinsupp_power hb he hw, FormalRoot.ofScalar_int_of_root he.den_pos hs, zsmul_zero,
    Base.rest_zero, hsmul] at hrest
  rw [← hrest] at hden
  exact he.1.ne hden

/-- The square of a power never has the imaginary unit, and the power of half the degree has it
where it stands for the sign. -/
theorem ne_of_imaginarySign (hb : b.Canonical) (he : Fraction.Canonical ⟨p, h⟩)
    (hsign : ImaginarySign b.num h) (hy : (FormalRoot.ofScalar b (2 * h)).IsPower (2 * p) y)
    (hw : power b (.frac ⟨p, h⟩) = .ok w) : y ≠ w := by
  rintro rfl
  have hpos : 0 < h := he.den_pos
  have hone := (imaginary_of_power (e := ⟨p, h⟩) hb he hw 1).2 ⟨rfl, hsign⟩
  have hrest := hy.toFinsupp hb (by omega) .imaginary
  rw [Exponents.toFinsupp_of_get? hone, Scalar.value_one] at hrest
  rcases FormalRoot.ofScalar_imaginary (b := b) (q := 2 * h) (by omega) with ⟨ht, -⟩ | ⟨ht, -⟩
  · rw [ht, zsmul_zero, Base.rest_zero] at hrest
    exact one_ne_zero hrest
  · rw [ht, zsmul_one, Base.rest_imaginary, Int.mul_emod_right, Int.cast_zero] at hrest
    exact one_ne_zero hrest

/-! ## The square of a power -/

/-- For odd degrees and square roots the square is always the power of twice the exponent. -/
theorem mul_self_eq_of_degree (hb : b.Canonical) (he : e.Canonical)
    (hdegree : e.den % 2 = 1 ∨ e.den = 2)
    (hy : (FormalRoot.ofScalar b e.den).IsPower (2 * e.num) y)
    (hw : power b (.whole 2 * .frac e) = .ok w) : y = w := by
  have hcan := Scalar.canonical_mul (b := .frac e) (Scalar.canonical_whole 2) he
  have hdeg : (Scalar.whole 2 * .frac e).HasDegree e.den := by
    rcases hdegree with hodd | htwo
    · rw [he.two_mul_of_odd hodd]
      exact .inr rfl
    · rw [he.two_mul_of_even (h := 1) htwo]
      exact .inl rfl
  obtain ⟨m, hm, hpow⟩ :=
    isPower_power_of_hasDegree hb he.den_pos (.inr hdegree) hcan hdeg hw
  have hq0 : (e.den : ℚ) ≠ 0 := Nat.cast_ne_zero.2 he.den_pos.ne'
  have htwice : m = 2 * e.num := by
    rw [Scalar.value_mul (b := .frac e) (Scalar.canonical_whole 2) he, he.value_eq_div,
      Scalar.value_whole, mul_div_assoc', div_left_inj' hq0] at hm
    exact_mod_cast hm.symm
  rw [htwice] at hpow
  exact hy.unique hpow

/-- For the other even degrees the square is the power of twice the exponent, unless a root appears
or a square root moves the sign of the base. -/
theorem mul_self_eq_iff_of_even (hb : b.Canonical) (hh : 2 ≤ h) (he : Fraction.Canonical ⟨p, h⟩)
    (hkept : b.num < 0 → h % 2 = 0 → ∀ r : ℕ, r ^ (2 * h) ≠ b.num.natAbs)
    (hy : (FormalRoot.ofScalar b (2 * h)).IsPower (2 * p) y)
    (hw : power b (.frac ⟨p, h⟩) = .ok w) :
    y = w ↔ ¬ RootAppears b.num.natAbs (2 * h) ∧ ¬ RootAppears b.den (2 * h) ∧
      ¬ (b.num < 0 ∧ h = 2) := by
  constructor
  · rintro rfl
    refine ⟨fun happ => ?_, fun happ => ?_, fun ⟨hneg, htwo⟩ => ?_⟩
    · exact ne_of_rootAppears hb he hy hw (.inl rfl) happ rfl
    · refine ne_of_rootAppears hb he hy hw (.inr rfl) ?_ rfl
      rwa [Int.natAbs_natCast]
    · exact ne_of_imaginarySign hb he ⟨hneg, by omega, .inl htwo⟩ hy hw rfl
  · rintro ⟨hnum, hden, hsign⟩
    exact hy.unique (isPower_two_mul_of_power hh he hnum hden (not_and.1 hsign) hkept hw)

/-- The square of a power is the power of twice the exponent exactly when halving an even degree
makes no root of a part of the base exact, and makes no square root of a negative base. -/
theorem power_mul_self_iff (hb : b.Canonical) (he : e.Canonical)
    (hkept : b.value < 0 → ¬ LosesSign b e) (hz : power b (.frac e) = .ok z)
    (hw : power b (.whole 2 * .frac e) = .ok w) :
    ∃ y, z.mul z = .ok y ∧ (y = w ↔ ¬ RootAppears b.num.natAbs e.den ∧
      ¬ RootAppears b.den e.den ∧ ¬ (b.value < 0 ∧ e.den = 4)) := by
  have hcan := canonical_power (e := .frac e) hb he hz
  obtain ⟨y, hy⟩ := exists_mul hcan hcan
  refine ⟨y, hy, ?_⟩
  have hpow := (isPower_power he hz).mul_self hy
  by_cases hdegree : e.den % 2 = 1 ∨ e.den = 2
  · have hnone : ∀ c, ¬ RootAppears c e.den := fun c happ => by
      have := happ.1
      have := happ.2.1
      omega
    refine iff_of_true (mul_self_eq_of_degree hb he hdegree hpow hw) ⟨hnone _, hnone _, ?_⟩
    omega
  · obtain ⟨h, hh2, hh, hhalf, hdouble⟩ := he.exists_half (by omega) (by omega)
    rw [hdouble] at hw
    rw [hh] at hpow
    have hfour : 2 * h = 4 ↔ h = 2 := by omega
    rw [Scalar.value_neg_iff hb, hh, hfour]
    refine mul_self_eq_iff_of_even hb hh2 hhalf (fun hneg heven r hr => ?_) hpow hw
    exact hkept ((Scalar.value_neg_iff hb).2 hneg) ⟨by omega, r, by rw [hh, hr]⟩

/-- The sixth root of `-64/5` squares to its cube root : the numerator has an exact root of both
degrees, and the denominator of neither. -/
theorem power_mul_self_neg_sixty_four_fifths :
    let z := product (.frac ⟨2, 5⟩)
      ((Exponents.single .imaginary 1).insert (.int 5) (.frac ⟨5, 6⟩))
    let w := product (.frac ⟨-4, 5⟩) (.single (.int 5) (.frac ⟨2, 3⟩))
    power (.frac ⟨-64, 5⟩) (.frac ⟨1, 6⟩) = .ok z ∧
      power (.frac ⟨-64, 5⟩) (.whole 2 * .frac ⟨1, 6⟩) = .ok w ∧ z.mul z = .ok w ∧
      ¬ RootAppears 64 6 ∧ ¬ RootAppears 5 6 ∧
      ¬ ((Scalar.frac ⟨-64, 5⟩).value < 0 ∧ 6 = 4) := by
  intro z w
  have hz : power (.frac ⟨-64, 5⟩) (.frac ⟨1, 6⟩) = .ok z := rfl
  have hw : power (.frac ⟨-64, 5⟩) (.whole 2 * .frac ⟨1, 6⟩) = .ok w := rfl
  have hsquare : z.mul z = .ok w := by
    subst z w
    rfl
  obtain ⟨y, hy, hiff⟩ := power_mul_self_iff (b := .frac ⟨-64, 5⟩) (e := ⟨1, 6⟩) (by decide)
    (by decide) (fun _ hlost => absurd hlost.1 (by decide)) hz hw
  exact ⟨hz, hw, hsquare, hiff.1 (Except.ok.inj (hy.symm.trans hsquare))⟩

/-- The square of a power that has lost the sign of its base is never the power of twice the
exponent : that has the imaginary unit, and the square has not. -/
theorem mul_self_ne_of_losesSign (hb : b.Canonical) (he : e.Canonical) (hneg : b.value < 0)
    (hlost : LosesSign b e) (hz : power b (.frac e) = .ok z)
    (hw : power b (.whole 2 * .frac e) = .ok w) : ∃ y, z.mul z = .ok y ∧ y ≠ w := by
  obtain ⟨hfour, r, hr⟩ := hlost
  have hcan := canonical_power (e := .frac e) hb he hz
  obtain ⟨y, hy⟩ := exists_mul hcan hcan
  refine ⟨y, hy, ?_⟩
  have hpow := (isPower_power he hz).mul_self hy
  obtain ⟨h, -, hh, hhalf, hdouble⟩ := he.exists_half (by omega) (by omega)
  rw [hdouble] at hw
  rw [hh] at hpow
  -- The square of the exact root is an exact root of half the degree, which is still even.
  have hroot : (r ^ 2) ^ h = b.num.natAbs := by rw [← pow_mul, ← hh, hr]
  exact ne_of_imaginarySign hb hhalf
    ⟨(Scalar.value_neg_iff hb).1 hneg, by omega, .inr ⟨r ^ 2, hroot⟩⟩ hpow hw

/-- The square of the fourth root of four is the square root of four, and not two. -/
theorem mul_self_fourth_root_of_four :
    power (.whole 4) (.frac ⟨1, 4⟩) = .ok (root 4 ⟨1, 4⟩) ∧
      (root 4 ⟨1, 4⟩).mul (root 4 ⟨1, 4⟩) = .ok (root 4 ⟨1, 2⟩) ∧
      power (.whole 4) (.whole 2 * .frac ⟨1, 4⟩) = .ok (scalar (.whole 2)) ∧
      root 4 ⟨1, 2⟩ ≠ scalar (.whole 2) :=
  ⟨rfl, rfl, rfl, nofun⟩

end Surds
