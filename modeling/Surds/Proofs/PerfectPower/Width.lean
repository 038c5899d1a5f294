import Mathlib.Data.Nat.Size
import Surds.Proofs.PerfectPower.Residue

/-!
# The width of modular powers

A step spends one bit of the exponent (`ModularPower.exp_iterate_step`), so a run makes as many
steps as the exponent has bits (`ModularPower.runsFor_size`), and its answer is the result of the
last of them (`ModularPower.RunsFor.run_eq`).

Every step keeps both factors below the modulus (`ModularPower.Reduced.iterate_step`). The products
that a step forms from them are below the square of the modulus, so for a modulus within 64 bits
they are within 128 (`ModularPower.Reduced.fits`). Hence squaring and multiplying is exact at full
width (`powMod_full_width`).
-/

namespace Surds

namespace ModularPower

/-- Result and base are reduced modulo `m`. -/
structure Reduced (m : ℕ) (s : ModularPower) : Prop where
  result_lt : s.result < m
  base_lt : s.base < m

/-- The result is within 64 bits, and the products that the next step forms are within 128. -/
structure Fits (s : ModularPower) : Prop where
  result_lt : s.result < 2 ^ 64
  result_mul_base_lt : s.result * s.base < 2 ^ 128
  base_mul_base_lt : s.base * s.base < 2 ^ 128

/-- The exponent is spent after `n` steps from `s` and not before. -/
structure RunsFor (m : ℕ) (s : ModularPower) (n : ℕ) : Prop where
  goes_on : ∀ i < n, ((step m)^[i] s).exp ≠ 0
  stops : ((step m)^[n] s).exp = 0

variable {m : ℕ} {s : ModularPower}

/-! ## The steps of a run -/

theorem exp_iterate_step (m : ℕ) (s : ModularPower) (i : ℕ) :
    ((step m)^[i] s).exp = s.exp / 2 ^ i := by
  induction i with
  | zero => rw [Function.iterate_zero_apply, pow_zero, Nat.div_one]
  | succ i ih =>
    rw [Function.iterate_succ_apply', pow_succ, ← Nat.div_div_eq_div_mul, ← ih]
    rfl

/-- A run makes a step for each bit of the exponent. -/
theorem runsFor_size (m : ℕ) (s : ModularPower) : RunsFor m s s.exp.size where
  goes_on i hi := by
    rw [exp_iterate_step]
    exact (Nat.div_pos (Nat.lt_size.1 hi) (Nat.two_pow_pos i)).ne'
  stops := by
    rw [exp_iterate_step, Nat.div_eq_of_lt (Nat.lt_size_self _)]

theorem RunsFor.run_eq {n : ℕ} (h : RunsFor m s n) : s.run m = ((step m)^[n] s).result := by
  induction n generalizing s with
  | zero =>
    have hspent : s.exp = 0 := h.stops
    rw [run, if_pos hspent, Function.iterate_zero_apply]
  | succ n ih =>
    have hleft : s.exp ≠ 0 := h.goes_on 0 n.succ_pos
    have hnext : RunsFor m (s.step m) n :=
      ⟨fun i hi => h.goes_on (i + 1) (Nat.succ_lt_succ hi), h.stops⟩
    rw [run, if_neg hleft, ih hnext, Function.iterate_succ_apply]

/-! ## The width of a step -/

theorem reduced_start (base exp : ℕ) (hm : 1 < m) : (start base exp m).Reduced m :=
  ⟨hm, Nat.mod_lt base (Nat.zero_lt_of_lt hm)⟩

theorem Reduced.step (h : s.Reduced m) : (s.step m).Reduced m :=
  ⟨result_step_lt h.result_lt, Nat.mod_lt _ (Nat.zero_lt_of_lt h.base_lt)⟩

theorem Reduced.iterate_step (h : s.Reduced m) (i : ℕ) :
    ((ModularPower.step m)^[i] s).Reduced m := by
  induction i with
  | zero => exact h
  | succ i ih =>
    rw [Function.iterate_succ_apply']
    exact ih.step

/-- Products of reduced factors are below the square of the modulus. -/
theorem Reduced.fits (h : s.Reduced m) (hm : m < 2 ^ 64) : s.Fits := by
  have hproduct : ∀ {a b : ℕ}, a < m → b < m → a * b < 2 ^ 128 := fun {a b} ha hb =>
    calc a * b < 2 ^ 64 * 2 ^ 64 := Nat.mul_lt_mul'' (ha.trans hm) (hb.trans hm)
      _ = 2 ^ 128 := (pow_add 2 64 64).symm
  exact ⟨h.result_lt.trans hm, hproduct h.result_lt h.base_lt, hproduct h.base_lt h.base_lt⟩

end ModularPower

open ModularPower

/-- For a modulus within 64 bits the answer is the power, whatever base and exponent are. The run
makes a step for each bit of the exponent, and no product that is formed on the way is wider than
128 bits. -/
theorem powMod_full_width {m : ℕ} (hm : 2 ≤ m) (hwidth : m < 2 ^ 64) (base exp : ℕ) :
    powMod base exp m = base ^ exp % m ∧
      RunsFor m (start base exp m) exp.size ∧
      powMod base exp m = ((step m)^[exp.size] (start base exp m)).result ∧
      ∀ i ≤ exp.size, ((step m)^[i] (start base exp m)).Fits := by
  have hruns : RunsFor m (start base exp m) exp.size := runsFor_size m _
  have hreduced : (start base exp m).Reduced m := reduced_start base exp hm
  exact ⟨powMod_eq base exp hm, hruns, hruns.run_eq,
    fun i _ => (hreduced.iterate_step i).fits hwidth⟩

/-- An odd power of minus one modulo the largest prime of 64 bits. The first step squares a base of
64 bits, which takes all of 128. -/
theorem powMod_full_width_of_minus_one :
    2 ^ 127 < (start (2 ^ 64 - 60) 7 (2 ^ 64 - 59)).base ^ 2 ∧
      (start (2 ^ 64 - 60) 7 (2 ^ 64 - 59)).Fits ∧
      RunsFor (2 ^ 64 - 59) (start (2 ^ 64 - 60) 7 (2 ^ 64 - 59)) 3 ∧
      powMod (2 ^ 64 - 60) 7 (2 ^ 64 - 59) = 2 ^ 64 - 60 := by
  obtain ⟨hpower, hruns, -, hfits⟩ := powMod_full_width (m := 2 ^ 64 - 59)
    (by decide) (by decide) (2 ^ 64 - 60) 7
  exact ⟨by decide, hfits 0 (Nat.zero_le _), hruns, hpower.trans (by decide)⟩

end Surds
