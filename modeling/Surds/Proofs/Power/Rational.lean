import Mathlib.Algebra.Order.Field.Power
import Surds.Proofs.Power.Exact

/-!
# Rational powers

A power is a scalar exactly when the power of the base to the numerator has a rational root
(`power_scalar_iff`), so no root that could be taken is left beside a coefficient. A power of the
base with a root makes a root of the base itself, since numerator and denominator of the exponent
have no factor in common (`exists_root_of_zpow`).
-/

namespace Surds

open Surd

variable {b v : Scalar} {e : Fraction} {z : Surd}

/-- If a power of coprime exponent has a root, so has its base. -/
theorem exists_root_of_zpow {p : ℤ} {q : ℕ} (hcop : IsCoprime p q) {a s : ℚ} (ha : a ≠ 0)
    (hs : s ^ q = a ^ p) : ∃ t : ℚ, t ^ q = a := by
  obtain ⟨k, l, hkl⟩ := hcop
  refine ⟨s ^ k * a ^ l, ?_⟩
  calc (s ^ k * a ^ l) ^ q = (s ^ q) ^ k * a ^ (l * q) := by
        rw [mul_pow, ← zpow_natCast, ← zpow_natCast, ← zpow_natCast, zpow_comm, ← zpow_mul a]
    _ = a ^ (k * p + l * q) := by rw [hs, ← zpow_mul, ← zpow_add₀ ha, mul_comm p]
    _ = a := by rw [hkl, zpow_one]

/-- The power of a number to the numerator has a root exactly when the number has one. -/
theorem exists_root_iff (he : e.Canonical) (a : ℚ) :
    (∃ s : ℚ, s ^ e.den = a ^ e.num) ↔ ∃ t : ℚ, t ^ e.den = a := by
  constructor
  · rintro ⟨s, hs⟩
    by_cases ha : a = 0
    · exact ⟨0, by rw [ha, zero_pow he.den_pos.ne']⟩
    · exact exists_root_of_zpow (Int.isCoprime_iff_gcd_eq_one.2 he.2) ha hs
  · rintro ⟨t, rfl⟩
    refine ⟨t ^ e.num, ?_⟩
    rw [← zpow_natCast, ← zpow_natCast, zpow_comm]

/-- A power of a root is negative only for an odd degree, a negative base and an odd numerator. -/
theorem sign_of_root {a t : ℚ} {q : ℕ} {p : ℤ} (ht : t ^ q = a) (hsign : q % 2 = 0 → 0 ≤ t) :
    (q % 2 = 0 ∨ 0 ≤ a → 0 ≤ t ^ p) ∧ (a < 0 → q % 2 = 1 ∧ (t ^ p < 0 ↔ p % 2 = 1)) := by
  rcases Nat.mod_two_eq_zero_or_one q with heven | hodd
  · have hpos := hsign heven
    refine ⟨fun _ => zpow_nonneg hpos p, fun hneg => ?_⟩
    rw [← ht] at hneg
    exact absurd hneg (pow_nonneg hpos q).not_gt
  · have hq : Odd q := Nat.odd_iff.2 hodd
    rw [← ht, hq.pow_nonneg_iff, hq.pow_neg_iff, or_iff_right (by omega)]
    refine ⟨fun hpos => zpow_nonneg hpos p, fun hneg => ⟨hodd, ?_⟩⟩
    constructor
    · intro hp
      refine Int.odd_iff.1 (Int.not_even_iff_odd.1 fun heven => ?_)
      exact absurd hp (heven.zpow_nonneg t).not_gt
    · intro hp
      exact (Int.odd_iff.2 hp).zpow_neg hneg

/-- A power is a scalar exactly when the base to the numerator has a rational root. The scalar is
then such a root, with the sign that the degree, the base and the numerator give it. -/
theorem power_scalar_iff (hb : b.Canonical) (he : e.Canonical) (h : power b (.frac e) = .ok z) :
    ((∃ v, z = scalar v) ↔ ∃ s : ℚ, s ^ e.den = b.value ^ e.num) ∧
      ∀ v, z = scalar v → v.value ^ e.den = b.value ^ e.num ∧
        (e.den % 2 = 0 ∨ 0 ≤ b.value → 0 ≤ v.value) ∧
        (b.value < 0 → e.den % 2 = 1 ∧ (v.value < 0 ↔ e.num % 2 = 1)) := by
  refine ⟨⟨?_, ?_⟩, ?_⟩
  · rintro ⟨v, rfl⟩
    obtain ⟨t, ht, -, -⟩ := exists_root_of_power hb he h
    exact (exists_root_iff he _).2 ⟨t, ht⟩
  · intro hroot
    obtain ⟨t, ht⟩ := (exists_root_iff he _).1 hroot
    exact exists_scalar_of_root hb he ht h
  · rintro v rfl
    obtain ⟨t, ht, hsign, rfl⟩ := exists_root_of_power hb he h
    rw [Scalar.value_ofRat]
    refine ⟨?_, sign_of_root ht hsign⟩
    rw [← ht, ← zpow_natCast, ← zpow_natCast, zpow_comm]

/-- The power of exponent `2/3` of `-8/27` is the scalar `4/9`. -/
theorem power_neg_eight_twenty_sevenths :
    power (.frac ⟨-8, 27⟩) (.frac ⟨2, 3⟩) = .ok (scalar (.frac ⟨4, 9⟩)) ∧
      (∃ s : ℚ, s ^ 3 = (Scalar.frac ⟨-8, 27⟩).value ^ (2 : ℤ)) ∧
      (Scalar.frac ⟨4, 9⟩).value ^ 3 = (Scalar.frac ⟨-8, 27⟩).value ^ (2 : ℤ) := by
  have hpower : power (.frac ⟨-8, 27⟩) (.frac ⟨2, 3⟩) = .ok (scalar (.frac ⟨4, 9⟩)) := rfl
  obtain ⟨hiff, hscalar⟩ :=
    power_scalar_iff (b := .frac ⟨-8, 27⟩) (e := ⟨2, 3⟩) (by decide) (by decide) hpower
  exact ⟨hpower, hiff.1 ⟨_, rfl⟩, (hscalar _ rfl).1⟩

end Surds
