import Mathlib.Algebra.Order.Field.Rat
import Mathlib.Tactic.FieldSimp
import Surds.Proofs.Scalar.Value
import Surds.Scalar.Root

/-!
# Whole powers of scalars

A whole power of a canonical scalar is the power of its value, unless it is refused. It is refused
for two causes only (`intPow_eq`, `Scalar.pow_eq`) : a negative power of zero does not exist, and an
exponent over `exponentLimit` is not computed, except for zero, one and minus one. A power that is
not refused is canonical, although fractions are raised and turned over without being reduced.
-/

namespace Surds

theorem Scalar.ofRat_intCast (n : ℤ) : ofRat n = whole n := by
  rw [← value_whole, (canonical_whole n).ofRat_value]

theorem Scalar.ofRat_one : ofRat 1 = 1 := by
  exact_mod_cast ofRat_intCast 1

theorem Scalar.ofRat_zero : ofRat 0 = 0 := by
  exact_mod_cast ofRat_intCast 0

/-! ## Integers -/

/-- The power of a unit depends on the parity of the exponent only. -/
theorem zpow_of_natAbs_eq_one {n : ℤ} (h : n.natAbs = 1) (k : ℤ) :
    (n : ℚ) ^ k = if n < 0 ∧ k % 2 = 1 then -1 else 1 := by
  rcases Int.natAbs_eq_iff.1 h with rfl | rfl
  · simp
  · rcases Int.emod_two_eq_zero_or_one k with hk | hk
    · rw [if_neg (by omega)]
      push_cast
      exact (Int.even_iff.2 hk).neg_one_zpow
    · rw [if_pos ⟨by omega, hk⟩]
      push_cast
      exact (Int.odd_iff.2 hk).neg_one_zpow

theorem intPow_of_natAbs_eq_one {n : ℤ} (h : n.natAbs = 1) (k : ℤ) :
    intPow n k = .ok (.ofRat ((n : ℚ) ^ k)) := by
  rw [intPow_eq_ite]
  split_ifs with hk hn hneg hodd
  · rw [hk, zpow_zero, Scalar.ofRat_one]
  · simp [hn] at h
  · simp [hn] at h
  · rw [zpow_of_natAbs_eq_one h, if_pos hodd, ← Scalar.ofRat_intCast]
    rfl
  · rw [zpow_of_natAbs_eq_one h, if_neg hodd, Scalar.ofRat_one]
    rfl

theorem intPow_of_one_lt_natAbs {n : ℤ} (h : 1 < n.natAbs) (k : ℤ) : intPow n k =
    if exponentLimit < k.natAbs then .error .exponentTooLarge
    else .ok (.ofRat ((n : ℚ) ^ k)) := by
  have hn : n ≠ 0 := by rintro rfl; simp at h
  rw [intPow_eq_ite]
  by_cases hk : k = 0
  · simp [hk, Scalar.ofRat_one]
  rw [if_neg hk, if_neg hn, if_neg h.ne', withinLimit_eq]
  by_cases hlim : exponentLimit < k.natAbs
  · simp only [if_pos hlim]
    rfl
  simp only [if_neg hlim]
  show (if k < 0 then _ else _) = _
  split_ifs with hneg
  · rw [Int.pow_eq, Scalar.quotient?_eq_ok _ (pow_ne_zero _ hn)]
    obtain ⟨e, rfl⟩ : ∃ e : ℕ, k = -e := ⟨k.natAbs, by omega⟩
    simp
  · rw [← Scalar.ofRat_intCast, Int.pow_eq]
    obtain ⟨e, rfl⟩ : ∃ e : ℕ, k = e := ⟨k.natAbs, by omega⟩
    simp

theorem intPow_eq (n k : ℤ) : intPow n k =
    if n = 0 ∧ k < 0 then .error .divisionByZero
    else if 1 < n.natAbs ∧ exponentLimit < k.natAbs then .error .exponentTooLarge
    else .ok (.ofRat ((n : ℚ) ^ k)) := by
  rcases Nat.lt_trichotomy n.natAbs 1 with h | h | h
  · obtain rfl : n = 0 := by omega
    rw [intPow_eq_ite]
    by_cases hk : k = 0
    · simp [hk, Scalar.ofRat_one]
    · simp [hk, zero_zpow, Scalar.ofRat_zero]
  · have hn : n ≠ 0 := by rintro rfl; simp at h
    rw [intPow_of_natAbs_eq_one h, if_neg (fun hc => hn hc.1), if_neg (fun hc => hc.1.ne' h)]
  · have hn : n ≠ 0 := by rintro rfl; simp at h
    simp only [intPow_of_one_lt_natAbs h, hn, h, false_and, if_false, true_and]

/-- A whole power of an integer that is computed is the power of its value. -/
theorem eq_ofRat_of_intPow {n k : ℤ} {v : Scalar} (h : intPow n k = .ok v) :
    v = .ofRat ((n : ℚ) ^ k) := by
  rw [intPow_eq] at h
  split_ifs at h
  exact (Except.ok.inj h).symm

theorem canonical_of_intPow {n k : ℤ} {v : Scalar} (h : intPow n k = .ok v) : v.Canonical := by
  rw [eq_ofRat_of_intPow h]
  exact Scalar.canonical_ofRat _

/-- The causes for which a whole power of an integer is refused. -/
theorem intPow_eq_error_iff {n k : ℤ} {w : Failure} : intPow n k = .error w ↔
    w = .divisionByZero ∧ n = 0 ∧ k < 0 ∨
      w = .exponentTooLarge ∧ 1 < n.natAbs ∧ exponentLimit < k.natAbs := by
  rw [intPow_eq]
  split_ifs with h0 hlim
  · simp [h0, eq_comm]
  · simp [h0, hlim, eq_comm]
  · exact iff_of_false nofun fun h => h.elim (fun h => h0 h.2) fun h => hlim h.2

/-- Small powers of non-zero integers are computed. -/
theorem intPow_eq_ok {n k : ℤ} (hn : n ≠ 0) (hk : k.natAbs ≤ exponentLimit) :
    intPow n k = .ok (.ofRat ((n : ℚ) ^ k)) := by
  rw [intPow_eq, if_neg (fun h => hn h.1), if_neg (fun h => h.2.not_ge hk)]

/-! ## Fractions -/

namespace Fraction

variable {f : Fraction}

theorem Canonical.num_ne_zero (h : f.Canonical) : f.num ≠ 0 := by
  intro h0
  have h1 := h.2
  rw [h0, Int.natAbs_zero, Nat.gcd_zero_left] at h1
  exact h.1.ne' h1

theorem Canonical.value_ne_zero (h : f.Canonical) : (Scalar.frac f).value ≠ 0 := by
  exact_mod_cast Scalar.Canonical.value_ne_intCast h 0

/-- Turning a canonical fraction over leaves it in lowest terms. -/
theorem Canonical.inverse_eq_ofRat (h : f.Canonical) :
    f.inverse = .ofRat (Scalar.frac f).value⁻¹ := by
  have hnum := Scalar.Canonical.num_value (a := .frac f) h
  have hden := Scalar.Canonical.den_value (a := .frac f) h
  rw [inverse_eq_ofReduced, Scalar.ofRat, Rat.num_inv, Rat.den_inv,
    if_neg (by simpa [hnum] using h.num_ne_zero), hnum, hden]
  rfl

/-- Powers of coprime numbers are coprime. -/
theorem Canonical.pow (h : f.Canonical) {e : ℕ} (he : e ≠ 0) :
    Fraction.Canonical ⟨f.num ^ e, f.den ^ e⟩ := by
  refine ⟨Nat.one_lt_pow he h.1, ?_⟩
  rw [Int.natAbs_pow]
  exact Nat.Coprime.pow e e h.2

theorem value_pow (f : Fraction) (e : ℕ) :
    (Scalar.frac ⟨f.num ^ e, f.den ^ e⟩).value = (Scalar.frac f).value ^ e := by
  simp only [Scalar.value, Scalar.num_frac, Scalar.den_frac, Rat.mkRat_eq_div, div_pow]
  push_cast
  rfl

theorem Canonical.pow_eq (h : f.Canonical) (k : ℤ) : f.pow k =
    if exponentLimit < k.natAbs then .error .exponentTooLarge
    else .ok (.ofRat ((Scalar.frac f).value ^ k)) := by
  rw [Fraction.pow_eq_ite]
  by_cases hk : k = 0
  · rw [if_pos hk, if_neg (by simp [hk]), hk, zpow_zero, Scalar.ofRat_one]
  have hpow : Fraction.Canonical ⟨f.num.pow k.natAbs, f.den.pow k.natAbs⟩ := by
    simpa using h.pow (Int.natAbs_ne_zero.2 hk)
  rw [if_neg hk, withinLimit_eq]
  by_cases hlim : exponentLimit < k.natAbs
  · simp only [if_pos hlim]
    rfl
  simp only [if_neg hlim]
  show (if k < 0 then _ else _) = _
  split_ifs with hneg
  · rw [hpow.inverse_eq_ofRat]
    simp only [Int.pow_eq, Nat.pow_eq, value_pow]
    obtain ⟨e, rfl⟩ : ∃ e : ℕ, k = -e := ⟨k.natAbs, by omega⟩
    simp
  · rw [← Scalar.Canonical.ofRat_value (a := .frac _) hpow]
    simp only [Int.pow_eq, Nat.pow_eq, value_pow]
    obtain ⟨e, rfl⟩ : ∃ e : ℕ, k = e := ⟨k.natAbs, by omega⟩
    simp

end Fraction

/-! ## Scalars -/

theorem Scalar.pow_eq {a : Scalar} (ha : a.Canonical) (k : ℤ) : a.pow k =
    if a.value = 0 ∧ k < 0 then .error .divisionByZero
    else if a.value ≠ 0 ∧ a.value ≠ 1 ∧ a.value ≠ -1 ∧ exponentLimit < k.natAbs then
      .error .exponentTooLarge
    else .ok (ofRat (a.value ^ k)) := by
  cases a with
  | whole n =>
    have hunit : 1 < n.natAbs ↔ n ≠ 0 ∧ n ≠ 1 ∧ n ≠ -1 := by omega
    simp only [Scalar.pow_whole, intPow_eq, value_whole, hunit, and_assoc]
    norm_cast
  | frac f =>
    have h := fun n : ℤ => Canonical.value_ne_intCast ha n
    have h0 : (frac f).value ≠ 0 := by exact_mod_cast h 0
    have h1 : (frac f).value ≠ 1 := by exact_mod_cast h 1
    have h2 : (frac f).value ≠ -1 := by exact_mod_cast h (-1)
    simp only [Scalar.pow_frac, Fraction.Canonical.pow_eq ha, ne_eq, h0, h1, h2, not_false_eq_true,
      true_and, false_and, if_false]

/-- The causes for which a whole power of a scalar is refused. -/
theorem Scalar.pow_eq_error_iff {a : Scalar} (ha : a.Canonical) {k : ℤ} {w : Failure} :
    a.pow k = .error w ↔ w = .divisionByZero ∧ a.value = 0 ∧ k < 0 ∨
      w = .exponentTooLarge ∧ a.value ≠ 0 ∧ a.value ≠ 1 ∧ a.value ≠ -1 ∧
        exponentLimit < k.natAbs := by
  rw [pow_eq ha]
  split_ifs with h0 hlim
  · simp [h0, eq_comm]
  · simp [hlim, eq_comm]
  · exact iff_of_false nofun fun h => h.elim (fun h => h0 h.2) fun h => hlim h.2

/-- A whole power is computed for no cause to refuse it, and is the power of the value. -/
theorem Scalar.pow_eq_ok_iff {a v : Scalar} (ha : a.Canonical) {k : ℤ} :
    a.pow k = .ok v ↔ ¬ (a.value = 0 ∧ k < 0) ∧
      ¬ (a.value ≠ 0 ∧ a.value ≠ 1 ∧ a.value ≠ -1 ∧ exponentLimit < k.natAbs) ∧
      v = ofRat (a.value ^ k) := by
  rw [pow_eq ha]
  split_ifs with h0 hlim
  · exact iff_of_false nofun fun h => h.1 h0
  · exact iff_of_false nofun fun h => h.2.1 hlim
  · rw [Except.ok.injEq, and_iff_right h0, and_iff_right hlim, eq_comm]

/-- A whole power that is computed is canonical. -/
theorem Scalar.canonical_pow {a v : Scalar} (ha : a.Canonical) {k : ℤ} (h : a.pow k = .ok v) :
    v.Canonical := by
  rw [((pow_eq_ok_iff ha).1 h).2.2]
  exact canonical_ofRat _

end Surds
