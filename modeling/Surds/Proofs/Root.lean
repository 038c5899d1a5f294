import Mathlib.Algebra.Order.Ring.Int
import Mathlib.Algebra.Ring.Int.Parity
import Mathlib.Tactic.Linarith
import Surds.Scalar.Root

/-!
# Exact roots

`floorRoot n x` is the floor of the real `n`-th root of `x` (`floorRoot_bounds`) : while a root is
decided bit by bit, `x` stays between the `n`-th powers of what is decided and of that plus the
first bit not decided (`rootBits_bounds`). So `exactRoot? n x` is the natural number whose `n`-th
power is `x`, whenever there is one (`exactRoot?_eq_some_iff`).

The roots of an integer are those of its magnitude with the sign of the integer, except that an even
root of a negative integer does not exist (`sign_mul_pow`, `sign_mul_natAbs_of_pow`). So `intRoot?`
finds the root of an integer whenever there is one, and of an even degree the one that is not
negative (`intRoot?_eq_some_iff`).
-/

namespace Surds

/-- The interval between the decided root and its first undecided bit holds the root of `x`, and it
shrinks to one number. -/
theorem rootBits_bounds (n x : ℕ) :
    ∀ bits root : ℕ, root ^ n ≤ x → x < (root + 2 ^ bits) ^ n →
      rootBits n x bits root ^ n ≤ x ∧ x < (rootBits n x bits root + 1) ^ n
  | 0, root, hle, hlt => ⟨hle, hlt⟩
  | i + 1, root, hle, hlt => by
    simp only [rootBits, Nat.pow_eq]
    split_ifs with h
    · refine rootBits_bounds n x i _ h (hlt.trans_eq ?_)
      rw [pow_succ, mul_two, add_assoc]
    · exact rootBits_bounds n x i _ hle (not_le.1 h)

/-- The root has as many bits as `floorRoot` decides. -/
theorem lt_two_pow_pow {n : ℕ} (hn : 0 < n) (x : ℕ) : x < (2 ^ (x.log2 / n + 1)) ^ n := by
  have hexp : x.log2 + 1 ≤ (x.log2 / n + 1) * n := by
    rw [Nat.add_one_mul]
    exact Nat.lt_div_mul_add hn
  calc x < 2 ^ (x.log2 + 1) := Nat.lt_log2_self
    _ ≤ 2 ^ ((x.log2 / n + 1) * n) := Nat.pow_le_pow_right (by omega) hexp
    _ = (2 ^ (x.log2 / n + 1)) ^ n := pow_mul _ _ _

theorem floorRoot_bounds {n : ℕ} (hn : 0 < n) (x : ℕ) :
    floorRoot n x ^ n ≤ x ∧ x < (floorRoot n x + 1) ^ n := by
  refine rootBits_bounds n x _ 0 ?_ ?_
  · rw [zero_pow hn.ne']
    exact Nat.zero_le x
  · rw [zero_add]
    exact lt_two_pow_pow hn x

/-- No number but the floor root can be an exact root. -/
theorem eq_floorRoot_of_pow_eq {n r x : ℕ} (hn : 0 < n) (h : r ^ n = x) : r = floorRoot n x := by
  obtain ⟨hle, hlt⟩ := floorRoot_bounds hn x
  rw [← h] at hle hlt
  have h1 : floorRoot n (r ^ n) ≤ r := (Nat.pow_le_pow_iff_left hn.ne').1 hle
  have h2 : r < floorRoot n (r ^ n) + 1 := (Nat.pow_lt_pow_iff_left hn.ne').1 hlt
  rw [← h]
  omega

/-- An exact root is found just when there is one. -/
theorem exactRoot?_eq_some_iff {n r x : ℕ} (hn : 0 < n) : exactRoot? n x = some r ↔ r ^ n = x := by
  unfold exactRoot?
  split_ifs with h1
  · rcases h1 with rfl | hx
    · rw [Option.some.injEq, pow_one, eq_comm]
    · rw [Option.some.injEq]
      rcases Nat.le_one_iff_eq_zero_or_eq_one.1 hx with rfl | rfl
      · rw [pow_eq_zero_iff hn.ne', eq_comm]
      · rw [Nat.pow_eq_one, or_iff_left hn.ne', eq_comm]
  · simp only [Nat.pow_eq, Option.ite_none_right_eq_some, Option.some.injEq]
    refine ⟨fun ⟨hpow, hr⟩ => hr ▸ hpow, fun h => ?_⟩
    rw [← eq_floorRoot_of_pow_eq hn h]
    exact ⟨h, rfl⟩

theorem exactRoot?_eq_none_iff {n x : ℕ} (hn : 0 < n) :
    exactRoot? n x = none ↔ ∀ r, r ^ n ≠ x := by
  simp only [Option.eq_none_iff_forall_ne_some, ne_eq, exactRoot?_eq_some_iff hn]

/-! ## Integers -/

/-- A root of an integer is the root of its magnitude with the sign of the integer. -/
theorem sign_mul_natAbs_of_pow {n : ℕ} {a t : ℤ} (hn : n ≠ 0) (ht : t ^ n = a)
    (hsign : n % 2 = 0 → 0 ≤ t) : a.sign * t.natAbs = t := by
  have heq : a.sign = t.sign := by
    rcases lt_trichotomy t 0 with hneg | rfl | hpos
    · have hodd : Odd n := Nat.odd_iff.2 (by omega)
      rw [Int.sign_eq_neg_one_of_neg hneg, Int.sign_eq_neg_one_of_neg (ht ▸ hodd.pow_neg hneg)]
    · rw [← ht, zero_pow hn]
    · rw [Int.sign_eq_one_of_pos hpos, Int.sign_eq_one_of_pos (ht ▸ pow_pos hpos n)]
  rw [heq, Int.sign_mul_natAbs]

/-- An exact root of the magnitude with the sign of the integer is a root of the integer. -/
theorem sign_mul_pow {n r : ℕ} {a : ℤ} (hn : n ≠ 0) (hr : r ^ n = a.natAbs)
    (hreal : ¬ (a < 0 ∧ n % 2 = 0)) : (a.sign * r) ^ n = a ∧ (n % 2 = 0 → 0 ≤ a.sign * r) := by
  constructor
  · rcases lt_trichotomy a 0 with hneg | rfl | hpos
    · have hodd : Odd n := Nat.odd_iff.2 (Nat.mod_two_ne_zero.1 (not_and.1 hreal hneg))
      rw [Int.sign_eq_neg_one_of_neg hneg, neg_one_mul, hodd.neg_pow, ← Nat.cast_pow, hr]
      omega
    · rw [Int.sign_zero, zero_mul, zero_pow hn]
    · rw [Int.sign_eq_one_of_pos hpos, one_mul, ← Nat.cast_pow, hr]
      omega
  · intro heven
    have hnonneg : 0 ≤ a := not_lt.1 fun hneg => hreal ⟨hneg, heven⟩
    exact mul_nonneg (Int.sign_nonneg_iff.2 hnonneg) (Int.natCast_nonneg r)

/-- No integer has a negative even power. -/
theorem not_neg_of_pow {n : ℕ} {a t : ℤ} (ht : t ^ n = a) : ¬ (a < 0 ∧ n % 2 = 0) := by
  rintro ⟨hneg, heven⟩
  exact (ht ▸ (Nat.even_iff.2 heven).pow_nonneg t).not_gt hneg

/-- An integer root is found just when there is one, and an even one is not negative. -/
theorem intRoot?_eq_some_iff {n : ℕ} {a t : ℤ} (hn : 0 < n) :
    intRoot? n a = .ok (some t) ↔ t ^ n = a ∧ (n % 2 = 0 → 0 ≤ t) := by
  unfold intRoot?
  rw [if_neg hn.ne']
  split_ifs with hreal
  · exact iff_of_false nofun fun h => not_neg_of_pow h.1 hreal
  · rw [Except.ok.injEq, Option.map_eq_some_iff]
    constructor
    · rintro ⟨_, hroot, rfl⟩
      obtain ⟨r, hr, hcast⟩ := Option.bind_eq_some_iff.1 hroot
      obtain rfl := Option.some.inj hcast
      exact sign_mul_pow hn.ne' ((exactRoot?_eq_some_iff hn).1 hr) hreal
    · rintro ⟨ht, hsign⟩
      have hroot : exactRoot? n a.natAbs = some t.natAbs := by
        rw [exactRoot?_eq_some_iff hn, ← ht, Int.natAbs_pow]
      exact ⟨t.natAbs, Option.bind_eq_some_iff.2 ⟨_, hroot, rfl⟩,
        sign_mul_natAbs_of_pow hn.ne' ht hsign⟩

/-- Of a natural number the exact root is found. -/
theorem intRoot?_natCast {n : ℕ} (hn : 0 < n) (x : ℕ) :
    intRoot? n x = .ok ((exactRoot? n x).map fun r : ℕ => (r : ℤ)) := by
  rw [intRoot?, if_neg hn.ne', if_neg fun h => h.1.not_ge (Int.natCast_nonneg x),
    Int.natAbs_natCast]
  cases hroot : exactRoot? n x with
  | none => rfl
  | some r =>
    have hr := (exactRoot?_eq_some_iff hn).1 hroot
    have hsign : (x : ℤ).sign * r = r := by
      rcases Nat.eq_zero_or_pos x with rfl | hx
      · rw [pow_eq_zero_iff hn.ne'] at hr
        rw [hr, Nat.cast_zero, mul_zero]
      · rw [Int.sign_eq_one_of_pos (Int.natCast_pos.2 hx), one_mul]
    exact congrArg (fun t => Except.ok (some t)) hsign

/-- The search for a root of a positive degree does not fail. -/
theorem exists_intRoot? {n : ℕ} (hn : 0 < n) (a : ℤ) : ∃ o, intRoot? n a = .ok o := by
  unfold intRoot?
  rw [if_neg hn.ne']
  split_ifs
  · exact ⟨_, rfl⟩
  · exact ⟨_, rfl⟩

end Surds
