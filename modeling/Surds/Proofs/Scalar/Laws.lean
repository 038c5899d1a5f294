import Surds.Proofs.Scalar.Power

/-!
# Exact arithmetic

Canonical scalars calculate as the rational numbers do. Every canonical scalar is `ofRat` of a
rational number, and `ofRat` carries sums, products and opposites over (`ofRat_add`, `ofRat_mul`,
`ofRat_neg`). So the laws of rational numbers are equations between scalars, of whatever kinds the
scalars and the intermediate results are (`RationalLaws`, `rationalLaws_of_canonical`).

A canonical fraction turned over is its inverse. This may be a whole number, which has a quotient as
its own inverse (`inverse?`), and the second inverse is again the fraction.

Whole powers follow the laws of exponents, as far as they are computed (`PowerLaws`,
`powerLaws_of_canonical`). Negative exponents turn fractions over, which may make whole numbers of
them or of whole numbers fractions, and units are powers by parity; the laws hold across all of it.
-/

namespace Surds

namespace Scalar

variable {a b c : Scalar}

/-! ## Rational numbers as scalars -/

theorem ofRat_add (p q : ℚ) : ofRat p + ofRat q = ofRat (p + q) := by
  rw [add_eq_ofRat (canonical_ofRat p) (canonical_ofRat q), value_ofRat, value_ofRat]

theorem ofRat_mul (p q : ℚ) : ofRat p * ofRat q = ofRat (p * q) := by
  rw [mul_eq_ofRat (canonical_ofRat p) (canonical_ofRat q), value_ofRat, value_ofRat]

theorem ofRat_neg (p : ℚ) : -ofRat p = ofRat (-p) := by
  refine (canonical_neg (canonical_ofRat p)).ext (canonical_ofRat (-p)) ?_
  rw [value_neg, value_ofRat, value_ofRat]

theorem Canonical.exists_ofRat (ha : a.Canonical) : ∃ p, a = ofRat p :=
  ⟨a.value, ha.ofRat_value.symm⟩

/-! ## Inverses -/

/-- The inverse of a scalar. That of a whole number is the quotient of one by it. -/
def inverse? : Scalar → Except Failure Scalar
  | whole n => quotient? 1 n
  | frac f => .ok f.inverse

theorem Canonical.inverse?_eq (ha : a.Canonical) (h0 : a ≠ 0) :
    a.inverse? = .ok (ofRat a.value⁻¹) := by
  cases a with
  | whole n =>
    have hn : n ≠ 0 := fun hn => h0 (congrArg whole hn)
    rw [inverse?, quotient?_eq_ok _ hn, Int.cast_one, one_div, value_whole]
  | frac f => rw [inverse?, Fraction.Canonical.inverse_eq_ofRat ha]

/-- A fraction times the fraction turned over is one. -/
theorem frac_mul_inverse {f : Fraction} (hf : f.Canonical) : frac f * f.inverse = 1 := by
  have hfrac : ofRat (frac f).value = frac f := Canonical.ofRat_value (a := .frac f) hf
  rw [hf.inverse_eq_ofRat]
  nth_rewrite 1 [← hfrac]
  rw [ofRat_mul, mul_inv_cancel₀ hf.value_ne_zero, ofRat_one]

theorem inverse?_inverse {f : Fraction} (hf : f.Canonical) : f.inverse.inverse? = .ok (frac f) := by
  have hfrac : ofRat (frac f).value = frac f := Canonical.ofRat_value (a := .frac f) hf
  have h0 : ofRat (frac f).value⁻¹ ≠ 0 := by
    rw [ne_eq, ← (canonical_ofRat _).value_eq_zero_iff, value_ofRat]
    exact inv_ne_zero hf.value_ne_zero
  rw [hf.inverse_eq_ofRat, (canonical_ofRat _).inverse?_eq h0, value_ofRat, inv_inv, hfrac]

/-! ## Laws -/

/-- The laws of rational numbers for three scalars. -/
structure RationalLaws (a b c : Scalar) : Prop where
  value_add : (a + b).value = a.value + b.value
  value_mul : (a * b).value = a.value * b.value
  value_neg : (-a).value = -a.value
  canonical_add : (a + b).Canonical
  canonical_mul : (a * b).Canonical
  canonical_neg : (-a).Canonical
  add_comm : a + b = b + a
  add_assoc : a + b + c = a + (b + c)
  mul_comm : a * b = b * a
  mul_assoc : a * b * c = a * (b * c)
  mul_add : a * (b + c) = a * b + a * c
  add_neg_self : a + -a = 0
  /-- Scalars of one value are one scalar. -/
  value_inj : a.value = b.value → a = b

/-- Canonical scalars are an exact model of the rational numbers, in which whole numbers are added
and multiplied as integers, and fractions have inverses. -/
theorem rationalLaws_of_canonical (ha : a.Canonical) (hb : b.Canonical) (hc : c.Canonical) :
    RationalLaws a b c ∧
      (∀ m n : ℤ, whole m + whole n = whole (m + n) ∧ whole m * whole n = whole (m * n)) ∧
      ∀ f : Fraction, f.Canonical →
        frac f * f.inverse = 1 ∧ f.inverse.inverse? = .ok (frac f) := by
  refine ⟨?_, fun m n => ⟨whole_add_whole m n, whole_mul_whole m n⟩,
    fun f hf => ⟨frac_mul_inverse hf, inverse?_inverse hf⟩⟩
  obtain ⟨p, rfl⟩ := ha.exists_ofRat
  obtain ⟨q, rfl⟩ := hb.exists_ofRat
  obtain ⟨r, rfl⟩ := hc.exists_ofRat
  exact {
    value_add := value_add ha hb
    value_mul := value_mul ha hb
    value_neg := value_neg _
    canonical_add := canonical_add ha hb
    canonical_mul := canonical_mul ha hb
    canonical_neg := canonical_neg ha
    add_comm := by rw [ofRat_add, ofRat_add, add_comm]
    add_assoc := by simp only [ofRat_add, add_assoc]
    mul_comm := by rw [ofRat_mul, ofRat_mul, mul_comm]
    mul_assoc := by simp only [ofRat_mul, mul_assoc]
    mul_add := by simp only [ofRat_add, ofRat_mul, mul_add]
    add_neg_self := by rw [ofRat_neg, ofRat_add, add_neg_cancel, ofRat_zero]
    value_inj := ha.ext hb }

/-- A whole number, fractions that cancel against it, and a fraction whose inverse is whole. -/
theorem rationalLaws_of_mixed_kinds :
    RationalLaws (.whole 6) (.frac ⟨-1, 2⟩) (.frac ⟨5, 6⟩) ∧
      Scalar.frac ⟨-1, 5⟩ * .whole (-5) = 1 ∧
      (Scalar.whole (-5)).inverse? = .ok (.frac ⟨-1, 5⟩) := by
  obtain ⟨hlaws, -, hinverse⟩ := rationalLaws_of_canonical (a := .whole 6) (b := .frac ⟨-1, 2⟩)
    (c := .frac ⟨5, 6⟩) (by decide) (by decide) (by decide)
  exact ⟨hlaws, hinverse ⟨-1, 5⟩ (by decide)⟩

/-! ## Whole powers -/

variable {j k : ℤ} {u v w : Scalar}

/-- Exponents add up, also those of zero : its computed powers have no negative exponents. -/
theorem pow_add_eq_mul (ha : a.Canonical) (hu : a.pow j = .ok u) (hv : a.pow k = .ok v)
    (hw : a.pow (j + k) = .ok w) : w = u * v := by
  obtain ⟨hj, -, rfl⟩ := (pow_eq_ok_iff ha).1 hu
  obtain ⟨hk, -, rfl⟩ := (pow_eq_ok_iff ha).1 hv
  obtain ⟨-, -, rfl⟩ := (pow_eq_ok_iff ha).1 hw
  rw [ofRat_mul]
  by_cases h0 : a.value = 0
  · have hj0 : 0 ≤ j := not_lt.1 fun hneg => hj ⟨h0, hneg⟩
    have hk0 : 0 ≤ k := not_lt.1 fun hneg => hk ⟨h0, hneg⟩
    lift j to ℕ using hj0
    lift k to ℕ using hk0
    rw [← Nat.cast_add, zpow_natCast, zpow_natCast, zpow_natCast, pow_add]
  · rw [zpow_add₀ h0]

/-- Exponents of powers are multiplied. -/
theorem pow_pow_eq (ha : a.Canonical) (hu : a.pow j = .ok u) (hv : u.pow k = .ok v)
    (hw : a.pow (j * k) = .ok w) : v = w := by
  obtain ⟨-, -, rfl⟩ := (pow_eq_ok_iff ha).1 hu
  obtain ⟨-, -, rfl⟩ := (pow_eq_ok_iff (canonical_ofRat _)).1 hv
  obtain ⟨-, -, rfl⟩ := (pow_eq_ok_iff ha).1 hw
  rw [value_ofRat, zpow_mul]

/-- The laws of the whole powers of a scalar. -/
structure PowerLaws (a : Scalar) : Prop where
  /-- Zero has no negative powers. -/
  divisionByZero_iff : ∀ k : ℤ, a.pow k = .error .divisionByZero ↔ a = 0 ∧ k < 0
  /-- Exponents from `2 ^ 32` on are refused for all scalars but zero, one and minus one. -/
  exponentTooLarge_iff : ∀ k : ℤ, a.pow k = .error .exponentTooLarge ↔
    a ≠ 0 ∧ a ≠ 1 ∧ a ≠ -1 ∧ 2 ^ 32 ≤ k.natAbs
  /-- All other powers are computed. -/
  pow_ok : ∀ k : ℤ, ¬ (a = 0 ∧ k < 0) → ¬ (a ≠ 0 ∧ a ≠ 1 ∧ a ≠ -1 ∧ 2 ^ 32 ≤ k.natAbs) →
    ∃ v, a.pow k = .ok v ∧ v.Canonical ∧ v.value = a.value ^ k
  pow_zero : a.pow 0 = .ok 1
  pow_add : ∀ (j k : ℤ) (u v w : Scalar), a.pow j = .ok u → a.pow k = .ok v →
    a.pow (j + k) = .ok w → w = u * v
  pow_mul : ∀ (j k : ℤ) (u v w : Scalar), a.pow j = .ok u → u.pow k = .ok v →
    a.pow (j * k) = .ok w → v = w

/-- Whole powers of canonical scalars are exact, and are refused at their limits only. -/
theorem powerLaws_of_canonical (ha : a.Canonical) : PowerLaws a := by
  have hzero := ha.value_eq_zero_iff
  have hone := ha.value_eq_one_iff
  have hneg := ha.value_eq_neg_one_iff
  have hlimit : ∀ k : ℤ, exponentLimit < k.natAbs ↔ 2 ^ 32 ≤ k.natAbs := fun k => by
    unfold exponentLimit
    omega
  exact {
    divisionByZero_iff := fun k => by simp [pow_eq_error_iff ha, hzero]
    exponentTooLarge_iff := fun k => by simp [pow_eq_error_iff ha, hzero, hone, hneg, hlimit]
    pow_ok := fun k h0 hlim => by
      have hok : a.pow k = .ok (ofRat (a.value ^ k)) := by
        simp only [pow_eq_ok_iff ha, ne_eq, hzero, hone, hneg, hlimit, and_true]
        exact ⟨h0, hlim⟩
      exact ⟨_, hok, canonical_ofRat _, value_ofRat _⟩
    pow_zero := by
      cases a
      · rfl
      · rfl
    pow_add := fun _ _ _ _ _ hu hv hw => pow_add_eq_mul ha hu hv hw
    pow_mul := fun _ _ _ _ _ hu hv hw => pow_pow_eq ha hu hv hw }

/-- A negative power of a fraction that is whole, and exponents just within the limit and over
it. -/
theorem powerLaws_neg_one_half :
    PowerLaws (.frac ⟨-1, 2⟩) ∧ (Scalar.frac ⟨-1, 2⟩).pow (-3) = .ok (.whole (-8)) ∧
      (∃ v, (Scalar.frac ⟨-1, 2⟩).pow 4294967295 = .ok v) ∧
      (Scalar.frac ⟨-1, 2⟩).pow (-4294967296) = .error .exponentTooLarge := by
  have hlaws := powerLaws_of_canonical (a := .frac ⟨-1, 2⟩) (by decide)
  obtain ⟨v, hv, -⟩ := hlaws.pow_ok 4294967295 (by decide) (by decide)
  exact ⟨hlaws, rfl, ⟨v, hv⟩, (hlaws.exponentTooLarge_iff _).2 (by decide)⟩

end Scalar

end Surds
