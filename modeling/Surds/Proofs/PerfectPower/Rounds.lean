import Mathlib.Data.Nat.Count
import Surds.Proofs.PerfectPower.Residue

/-!
# The rounds of the residue filter

Round `i` of the filter of degree `k` looks at the modulus `i * k + 1`. If it is a prime, the number
must be zero or a power residue modulo it (`isPowerResidue_iff`), and one of the tests is spent.

A round leaves the filter with the tests and the modulus for the next one (`passesFrom_round`), and
so after any number of rounds that are made the filter has tested the primes among their moduli, and
goes on with the tests that are left (`mayBePower_iff_of_goesOn`). The moduli grow, so there is a
last round : all tests are spent, or the next modulus is out of bounds (`exists_endsAfter`). What
the filter lets through is what passes the rounds up to that one, and powers are among it
(`mayBePower_rounds`).
-/

namespace Surds

/-- How many of the moduli of the first `n` rounds are primes. -/
def primesWithin (k n : ℕ) : ℕ :=
  Nat.count (fun i => ((i + 1) * k + 1).Prime) n

/-- After `i` rounds tests are left, and the next modulus is within bounds. -/
def GoesOn (k i : ℕ) : Prop :=
  primesWithin k i < residueTests ∧ (i + 1) * k + 1 < modulusBound

instance (k i : ℕ) : Decidable (GoesOn k i) :=
  inferInstanceAs (Decidable (_ ∧ _))

/-- The filter of degree `k` makes `n` rounds, unless the number fails one of them. Then it has tested
as many primes as it may, or the next modulus is out of bounds. -/
structure EndsAfter (k n : ℕ) : Prop where
  goes_on : ∀ i < n, GoesOn k i
  stops : primesWithin k n = residueTests ∨ modulusBound ≤ (n + 1) * k + 1

/-- The number `x` is zero or a power residue modulo the primes among the moduli of the first `n`
rounds. -/
def PassesRounds (x k n : ℕ) : Prop :=
  ∀ i, 0 < i → i ≤ n → (i * k + 1).Prime → i * k + 1 ∣ x ∨ x ^ i ≡ 1 [MOD i * k + 1]

variable {k i n x tests : ℕ}

/-! ## One round -/

theorem modulus_succ (k i : ℕ) : i * k + 1 + k = (i + 1) * k + 1 := by
  rw [Nat.add_one_mul, Nat.add_right_comm]

theorem isPowerResidue_iff (hk : 0 < k) (hi : 0 < i) : isPowerResidue x k (i * k + 1) = true ↔
    i * k + 1 ∣ x ∨ x ^ i ≡ 1 [MOD i * k + 1] := by
  have hone : 1 < i * k + 1 := Nat.succ_lt_succ (Nat.mul_pos hi hk)
  rw [isPowerResidue, Bool.or_eq_true, decide_eq_true_eq, decide_eq_true_eq, powMod_eq _ _ hone,
    Nat.add_sub_cancel, Nat.mul_div_cancel _ hk, ← Nat.pow_mod, Nat.dvd_iff_mod_eq_zero,
    Nat.ModEq, Nat.mod_eq_of_lt hone]

/-- A round tests the number if its modulus is a prime, and spends a test on it. -/
theorem passesFrom_round (hk : 0 < k) (htests : 0 < tests) (hlt : (i + 1) * k + 1 < modulusBound) :
    passesFrom x k tests (i * k + 1) = true ↔
      (((i + 1) * k + 1).Prime → isPowerResidue x k ((i + 1) * k + 1) = true) ∧
        passesFrom x k (tests - if ((i + 1) * k + 1).Prime then 1 else 0) ((i + 1) * k + 1) =
          true := by
  rw [passesFrom, if_neg htests.ne', modulus_succ, if_pos ⟨hk, hlt⟩]
  simp only [isPrime_iff]
  split_ifs with hprime
  · rw [Bool.and_eq_true, imp_iff_right hprime]
  · rw [Nat.sub_zero]
    exact (and_iff_right fun h => absurd h hprime).symm

theorem passesRounds_succ (hk : 0 < k) : PassesRounds x k (n + 1) ↔ PassesRounds x k n ∧
    (((n + 1) * k + 1).Prime → isPowerResidue x k ((n + 1) * k + 1) = true) := by
  rw [isPowerResidue_iff hk n.succ_pos]
  constructor
  · intro h
    exact ⟨fun i hi hle => h i hi (Nat.le_succ_of_le hle), h (n + 1) n.succ_pos le_rfl⟩
  · rintro ⟨h, hlast⟩ i hi hle
    rcases Nat.le_succ_iff.1 hle with hle | rfl
    · exact h i hi hle
    · exact hlast

/-! ## All rounds -/

/-- After rounds that are made, the number has passed them and goes through the filter with the
tests that are left. -/
theorem mayBePower_iff_of_goesOn (hk : 0 < k) (hgoes : ∀ i < n, GoesOn k i) :
    mayBePower x k = true ↔ PassesRounds x k n ∧
      passesFrom x k (residueTests - primesWithin k n) (n * k + 1) = true := by
  induction n with
  | zero =>
    have hnone : PassesRounds x k 0 := fun i hi hle => absurd hi hle.not_gt
    rw [and_iff_right hnone, zero_mul]
    rfl
  | succ n ih =>
    obtain ⟨hleft, hlt⟩ := hgoes n n.lt_succ_self
    rw [ih fun i hi => hgoes i (Nat.lt_succ_of_lt hi),
      passesFrom_round hk (Nat.sub_pos_of_lt hleft) hlt, passesRounds_succ hk, ← and_assoc,
      Nat.sub_sub, primesWithin, primesWithin, Nat.count_succ]

/-- When the filter stops, the number has passed. -/
theorem passesFrom_of_stops
    (h : primesWithin k n = residueTests ∨ modulusBound ≤ (n + 1) * k + 1) :
    passesFrom x k (residueTests - primesWithin k n) (n * k + 1) = true := by
  rw [passesFrom, modulus_succ]
  rcases h with h | h
  · rw [if_pos (Nat.sub_eq_zero_of_le h.ge)]
  · rw [if_neg (c := 0 < k ∧ _) fun hlt => hlt.2.not_ge h, ite_self]

/-- No round is made when all tests are spent. -/
theorem primesWithin_le (h : ∀ i < n, GoesOn k i) : primesWithin k n ≤ residueTests := by
  cases n with
  | zero => exact Nat.zero_le _
  | succ n =>
    have hleft := (h n n.lt_succ_self).1
    have hstep : primesWithin k (n + 1) ≤ primesWithin k n + 1 := by
      rw [primesWithin, primesWithin, Nat.count_succ]
      split_ifs
      · exact le_rfl
      · exact Nat.le_succ _
    omega

/-- The moduli grow, so there is a last round. -/
theorem exists_endsAfter (hk : 0 < k) : ∃ n, EndsAfter k n := by
  have hex : ∃ n, ¬ GoesOn k n := by
    refine ⟨modulusBound, fun h => ?_⟩
    have hle : modulusBound + 1 ≤ (modulusBound + 1) * k := Nat.le_mul_of_pos_right _ hk
    have := h.2
    omega
  have hgoes : ∀ i < Nat.find hex, GoesOn k i := fun i hi => not_not.1 (Nat.find_min hex hi)
  refine ⟨Nat.find hex, hgoes, ?_⟩
  have hle := primesWithin_le hgoes
  have hstops := not_and_or.1 (Nat.find_spec hex)
  omega

/-- The filter lets all powers of its degree through. Its rounds come to an end, when the tests are
spent or the moduli out of bounds, and what it lets through is what passes them. Between two rounds
it has the tests that are left and the modulus of the round before. -/
theorem mayBePower_rounds (hk : 0 < k) :
    (∀ x y : ℕ, x = y ^ k → mayBePower x k = true) ∧ (∃ n, EndsAfter k n) ∧
      ∀ n, EndsAfter k n → ∀ x, (mayBePower x k = true ↔ PassesRounds x k n) ∧
        ∀ i ≤ n, mayBePower x k = true ↔ PassesRounds x k i ∧
          passesFrom x k (residueTests - primesWithin k i) (i * k + 1) = true := by
  refine ⟨fun x y h => h ▸ mayBePower_pow y k, exists_endsAfter hk, fun n hn x => ?_⟩
  have hrounds : ∀ i ≤ n, mayBePower x k = true ↔ PassesRounds x k i ∧
      passesFrom x k (residueTests - primesWithin k i) (i * k + 1) = true := fun i hi =>
    mayBePower_iff_of_goesOn hk fun j hj => hn.goes_on j (hj.trans_le hi)
  exact ⟨(hrounds n le_rfl).trans (and_iff_left (passesFrom_of_stops hn.stops)), hrounds⟩

/-- The primes for cubes are found in 22 rounds. A large cube passes all of them, and its successor
is held back in the second, modulo seven. -/
theorem mayBePower_rounds_of_cubes : EndsAfter 3 22 ∧ mayBePower (1000003 ^ 3) 3 = true ∧
    mayBePower (1000003 ^ 3 + 1) 3 = false := by
  obtain ⟨hpow, -, hrounds⟩ := mayBePower_rounds (k := 3) (by decide)
  have hends : EndsAfter 3 22 := ⟨by decide, by decide⟩
  refine ⟨hends, hpow _ 1000003 rfl, ?_⟩
  rw [← Bool.not_eq_true, (hrounds 22 hends _).1]
  exact fun h => absurd (h 2 (by decide) (by decide) (by decide)) (by decide)

end Surds
