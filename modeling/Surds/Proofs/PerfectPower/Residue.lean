import Mathlib.FieldTheory.Finite.Basic
import Surds.PerfectPower.Basic

/-!
# The residue filter lets powers pass

Trial division finds the primes (`isPrime_iff`), and squaring and multiplying finds the powers
modulo a number (`powMod_eq`), because no step changes what is left to compute
(`ModularPower.value_step`).

All moduli of the filter are one more than a multiple of `k`, so by Fermat's little theorem a `k`-th
power is zero or a `k`-th power residue modulo each of them that is a prime (`isPowerResidue_pow`).
Hence no `k`-th power is held back (`mayBePower_pow`).
-/

namespace Surds

/-! ## Primes -/

/-- The search goes on up to the square root and stops at the first divisor. -/
theorem hasNoDivisorFrom_iff {k d : ℕ} (hd : 0 < d) :
    hasNoDivisorFrom k d = true ↔ ∀ m, d ≤ m → m ≤ k.sqrt → ¬ m ∣ k := by
  have hsqrt : ∀ {c : ℕ}, 0 < c → (c ≤ k / c ↔ c ≤ k.sqrt) := fun hc => by
    rw [Nat.le_div_iff_mul_le hc, Nat.le_sqrt]
  fun_induction hasNoDivisorFrom k d with
  | case1 d hle hdvd =>
    exact iff_of_false nofun fun h =>
      h d le_rfl ((hsqrt hd).1 hle) (Nat.dvd_of_mod_eq_zero hdvd)
  | case2 d hle hdvd ih =>
    refine (ih d.succ_pos).trans ⟨fun h m hdm hm => ?_, fun h m hdm => h m (Nat.le_of_succ_le hdm)⟩
    rcases hdm.eq_or_lt with rfl | hlt
    · exact fun h0 => hdvd (Nat.mod_eq_zero_of_dvd h0)
    · exact h m hlt hm
  | case3 d hgt =>
    refine iff_of_true rfl fun m hdm hm => ?_
    exact absurd ((hsqrt hd).2 (hdm.trans hm)) hgt

theorem isPrime_iff {k : ℕ} : isPrime k = true ↔ k.Prime := by
  rw [isPrime, Bool.and_eq_true, decide_eq_true_eq, hasNoDivisorFrom_iff two_pos,
    Nat.prime_def_le_sqrt]

/-! ## Modular powers -/

namespace ModularPower

variable {m : ℕ} {s : ModularPower}

/-- What is left to compute. -/
def value (m : ℕ) (s : ModularPower) : ℕ :=
  s.result * s.base ^ s.exp % m

/-- A step does not change what is left to compute. -/
theorem value_step (m : ℕ) (s : ModularPower) : (s.step m).value m = s.value m := by
  have hsquare : (s.base * s.base % m) ^ (s.exp / 2) ≡ s.base ^ (2 * (s.exp / 2)) [MOD m] := by
    rw [pow_mul, sq]
    exact (Nat.mod_modEq _ _).pow _
  have hexp : 2 * (s.exp / 2) + s.exp % 2 = s.exp := Nat.div_add_mod s.exp 2
  unfold step value
  split_ifs with hodd
  · calc s.result * s.base % m * (s.base * s.base % m) ^ (s.exp / 2)
        ≡ s.result * s.base * s.base ^ (2 * (s.exp / 2)) [MOD m] :=
          (Nat.mod_modEq _ _).mul hsquare
      _ = s.result * s.base ^ s.exp := by rw [mul_assoc, ← pow_succ', ← hodd, hexp]
  · calc s.result * (s.base * s.base % m) ^ (s.exp / 2)
        ≡ s.result * s.base ^ (2 * (s.exp / 2)) [MOD m] := hsquare.mul_left _
      _ = s.result * s.base ^ s.exp := by rw [show 2 * (s.exp / 2) = s.exp by omega]

theorem result_step_lt (h : s.result < m) : (s.step m).result < m := by
  unfold step
  split_ifs
  · exact Nat.mod_lt _ (Nat.zero_lt_of_lt h)
  · exact h

/-- The steps end in what was to be computed. -/
theorem run_eq_value (h : s.result < m) : s.run m = s.value m := by
  fun_induction run m s with
  | case1 s hexp => rw [value, hexp, pow_zero, mul_one, Nat.mod_eq_of_lt h]
  | case2 s hexp ih => rw [ih (result_step_lt h), value_step]

end ModularPower

theorem powMod_eq (base exp : ℕ) {m : ℕ} (hm : 1 < m) : powMod base exp m = base ^ exp % m := by
  rw [powMod, ModularPower.run_eq_value hm, ModularPower.value, ModularPower.start, one_mul,
    ← Nat.pow_mod]

/-! ## Residues -/

variable {k m tests : ℕ}

/-- Fermat's little theorem: a power is zero or a power residue. -/
theorem isPowerResidue_pow (y : ℕ) (hm : m.Prime) (hk : k ∣ m - 1) :
    isPowerResidue (y ^ k) k m = true := by
  rw [isPowerResidue, Bool.or_eq_true, decide_eq_true_eq, decide_eq_true_eq, or_iff_not_imp_left]
  intro hne
  have hcop : y.Coprime m := by
    refine (hm.coprime_iff_not_dvd.2 fun hdvd => hne ?_).symm
    have hk0 : k ≠ 0 := by
      rintro rfl
      have := hm.two_le
      have := Nat.eq_zero_of_zero_dvd hk
      omega
    exact Nat.mod_eq_zero_of_dvd (dvd_pow hdvd hk0)
  have hfermat : y ^ (m - 1) ≡ 1 [MOD m] := Nat.totient_prime hm ▸ Nat.ModEq.pow_totient hcop
  rw [powMod_eq _ _ hm.one_lt, ← Nat.pow_mod, ← pow_mul, Nat.mul_div_cancel' hk, hfermat,
    Nat.mod_eq_of_lt hm.one_lt]

/-- Whatever moduli are still to be tried, all are one more than a multiple of `k`. -/
theorem passesFrom_pow (y : ℕ) (hm : 0 < m) (hk : k ∣ m - 1) :
    passesFrom (y ^ k) k tests m = true := by
  have hnext : ∀ {m : ℕ}, 0 < m → k ∣ m - 1 → k ∣ m + k - 1 := fun hm hk => by
    rw [Nat.sub_add_comm hm]
    exact hk.add dvd_rfl
  fun_induction passesFrom (y ^ k) k tests m with
  | case1 => rfl
  | case2 tests m _ hlt hprime ih =>
    rw [isPowerResidue_pow y (isPrime_iff.1 hprime) (hnext hm hk), Bool.true_and]
    exact ih (by omega) (hnext hm hk)
  | case3 tests m _ hlt hprime ih => exact ih (by omega) (hnext hm hk)
  | case4 => rfl

/-- A power is let through by the filter of its degree. -/
theorem mayBePower_pow (y k : ℕ) : mayBePower (y ^ k) k = true :=
  passesFrom_pow y one_pos (dvd_zero k)

end Surds
