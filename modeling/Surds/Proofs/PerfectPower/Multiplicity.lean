import Mathlib.NumberTheory.Padics.PadicVal.Defs
import Mathlib.NumberTheory.PrimeCounting
import Surds.Proofs.PerfectPower.Exact

/-!
# What trial division extracts

Dividing goes on until a remainder is left, which takes as many rounds as the divisor goes into the
number (`dividesFor_padicValNat`). So dividing out chunks, the largest powers below `chunkBound`
(`chunkFrom_eq_log`), makes a round for each chunk in the multiplicity, and dividing one by one makes
the rounds that remain (`dividesInChunks`). This holds of any divisor from two on, prime or not.

The state after all small primes then determines the number : it is the rest times the powers of the
small primes in it (`SmallPart.After.rest_mul_prod`), and trial division gives up exactly on the
numbers whose small primes have coprime multiplicities (`SmallPart.of?_eq_none_iff`).
-/

namespace Surds

variable {d p x : ℕ}

/-! ## The rounds of a division -/

/-- Dividing `x` by `d` goes on for `n` rounds, and what is left then is not divisible. -/
structure DividesFor (d x n : ℕ) : Prop where
  goes_on : ∀ i < n, d ∣ x / d ^ i
  stops : ¬ d ∣ x / d ^ n
  divideAll_eq : divideAll d x = (n, x / d ^ n)

/-- The loop stops because a remainder is left, after as many rounds as `d` goes into `x`. -/
theorem dividesFor_padicValNat (hd : 1 < d) (hx : x ≠ 0) : DividesFor d x (padicValNat d x) := by
  have hsplit := splitsOff_divideAll hd (Nat.pos_of_ne_zero hx)
  have heq := hsplit.eq_padicValNat hd hx
  refine ⟨fun i hi => ?_, ?_, heq⟩
  · have hdvd : ∀ {j}, j ≤ padicValNat d x → d ^ j ∣ x :=
      (Nat.pow_dvd_iff_le_padicValNat hd.ne' hx).2
    rw [Nat.dvd_div_iff_mul_dvd (hdvd hi.le), ← pow_succ]
    exact hdvd hi
  · have hnot := hsplit.not_dvd
    rwa [heq] at hnot

/-! ## Chunks -/

/-- The exponent of the largest power of `p` below `chunkBound`. -/
def chunkSize (p : ℕ) : ℕ :=
  Nat.log p (chunkBound - 1)

/-- Dividing `p` out of `x` goes by the largest chunks first and then one by one. -/
structure DividesInChunks (p x : ℕ) : Prop where
  chunkFrom_eq : chunkFrom p p 1 = (p ^ chunkSize p, chunkSize p)
  chunks : DividesFor (p ^ chunkSize p) x (padicValNat p x / chunkSize p)
  singles : DividesFor p (x / (p ^ chunkSize p) ^ (padicValNat p x / chunkSize p))
    (padicValNat p x % chunkSize p)

/-- Chunks grow until the next one would be out of bounds. -/
theorem chunkFrom_maximal {power : ℕ} (exp : ℕ) (hp : 1 < p) (hpower : 0 < power)
    (hlt : power < chunkBound) : (chunkFrom p power exp).1 < chunkBound ∧
      chunkBound ≤ (chunkFrom p power exp).1 * p := by
  fun_induction chunkFrom p power exp with
  | case1 power exp h ih => exact ih (Nat.mul_pos hpower (by omega)) h.2.2
  | case2 power exp h => exact ⟨hlt, not_lt.1 fun hnext => h ⟨hp, hpower, hnext⟩⟩

theorem chunkFrom_eq_log (hp : 1 < p) (hlt : p < chunkBound) :
    chunkFrom p p 1 = (p ^ chunkSize p, chunkSize p) := by
  obtain ⟨hpow, -⟩ := chunkFrom_eq p (pow_one p).symm
  obtain ⟨hbelow, habove⟩ := chunkFrom_maximal 1 hp (Nat.zero_lt_of_lt hp) hlt
  rw [hpow] at hbelow
  rw [hpow, ← pow_succ] at habove
  have hsize : chunkSize p = (chunkFrom p p 1).2 :=
    Nat.log_eq_of_pow_le_of_lt_pow (Nat.le_sub_one_of_lt hbelow) (by omega)
  exact Prod.ext (hsize ▸ hpow) hsize.symm

/-- A power of `p` goes into `x` as often as its exponent into the multiplicity of `p`. -/
theorem padicValNat_pow_left {k : ℕ} (hp : 1 < p) (hk : 0 < k) (hx : x ≠ 0) :
    padicValNat (p ^ k) x = padicValNat p x / k := by
  refine eq_of_forall_le_iff fun i => ?_
  rw [← Nat.pow_dvd_iff_le_padicValNat (Nat.one_lt_pow hk.ne' hp).ne' hx, ← pow_mul,
    Nat.pow_dvd_iff_le_padicValNat hp.ne' hx, Nat.le_div_iff_mul_le hk, mul_comm]

theorem padicValNat_div_pow {k : ℕ} (hp : 1 < p) (hx : x ≠ 0) (hk : k ≤ padicValNat p x) :
    padicValNat p (x / p ^ k) = padicValNat p x - k := by
  obtain ⟨y, rfl⟩ := (Nat.pow_dvd_iff_le_padicValNat hp.ne' hx).2 hk
  rw [Nat.mul_div_cancel_left y (Nat.pow_pos (Nat.zero_lt_of_lt hp)),
    padicValNat_base_pow_mul hp (right_ne_zero_of_mul hx), Nat.add_sub_cancel]

theorem dividesInChunks (hp : 1 < p) (hlt : p < chunkBound) (hx : x ≠ 0) :
    DividesInChunks p x := by
  have hsize : 0 < chunkSize p := Nat.log_pos hp (Nat.le_sub_one_of_lt hlt)
  have hchunks := dividesFor_padicValNat (Nat.one_lt_pow hsize.ne' hp) hx
  rw [padicValNat_pow_left hp hsize hx] at hchunks
  refine ⟨chunkFrom_eq_log hp hlt, hchunks, ?_⟩
  -- The chunks take the multiplicity down to its remainder.
  have hle : chunkSize p * (padicValNat p x / chunkSize p) ≤ padicValNat p x :=
    Nat.mul_div_le _ _
  have hrest : x / (p ^ chunkSize p) ^ (padicValNat p x / chunkSize p) ≠ 0 := by
    intro h0
    exact hchunks.stops (h0 ▸ dvd_zero _)
  have hsingles := dividesFor_padicValNat hp hrest
  rw [← pow_mul] at hsingles ⊢
  rwa [padicValNat_div_pow hp hx hle, ← Nat.mod_eq_sub] at hsingles

/-! ## The small part -/

/-- The greatest common divisor of the multiplicities of the small primes, zero if there are none. -/
def commonMultiplicity (x : ℕ) : ℕ :=
  (Nat.primesBelow trialLimit).gcd fun p => padicValNat p x

theorem commonMultiplicity_eq_zero_iff (hx : x ≠ 0) :
    commonMultiplicity x = 0 ↔ ∀ p, p.Prime → p < trialLimit → ¬ p ∣ x := by
  simp only [commonMultiplicity, Finset.gcd_eq_zero_iff, Nat.mem_primesBelow,
    padicValNat.eq_zero_iff, hx, false_or]
  refine forall_congr' fun p => ⟨fun h hp hlt => ?_, fun h hp => .inr (h hp.2 hp.1)⟩
  exact (h ⟨hlt, hp⟩).resolve_left hp.ne_one

namespace SmallPart

variable {s : SmallPart}

/-- The state `s` holds the small part of `x` apart from the rest. -/
structure Extracts (x : ℕ) (s : SmallPart) : Prop where
  rest_mul_prod : s.rest * ∏ p ∈ Nat.primesBelow trialLimit, p ^ padicValNat p x = x
  not_dvd_rest : ∀ p, p.Prime → p < trialLimit → ¬ p ∣ s.rest
  multiplicity_eq : s.multiplicity = commonMultiplicity x

theorem mem_reverse_primes_iff : p ∈ primes.reverse ↔ p ∈ Nat.primesBelow trialLimit := by
  rw [List.mem_reverse, mem_primes_iff, Nat.mem_primesBelow]

theorem prod_primesBelow_eq (x n : ℕ) : ∏ p ∈ Nat.primesBelow n, p ^ padicValNat p x =
    (x.factorization.filter (· ∈ Nat.primesBelow n)).prod (· ^ ·) := by
  rw [Finsupp.prod_of_support_subset _ _ _ fun p _ => pow_zero p]
  · refine Finset.prod_congr rfl fun p hp => ?_
    rw [Finsupp.filter_apply_pos _ _ hp,
      Nat.factorization_def x (Nat.prime_of_mem_primesBelow hp)]
  · intro p hp
    rw [Finsupp.support_filter] at hp
    exact (Finset.mem_filter.1 hp).2

/-- What is left has lost the powers of the small primes and nothing else. -/
theorem After.rest_mul_prod (h : After x primes.reverse s) (hx : x ≠ 0) :
    s.rest * ∏ p ∈ Nat.primesBelow trialLimit, p ^ padicValNat p x = x := by
  have hrest : s.rest.factorization =
      x.factorization.filter (· ∉ Nat.primesBelow trialLimit) := by
    ext q
    rw [h.factorization_rest, Finsupp.filter_apply]
    simp only [mem_reverse_primes_iff, ite_not]
  rw [prod_primesBelow_eq, mul_comm]
  nth_rewrite 2 [← Nat.prod_factorization_pow_eq_self hx]
  rw [← Nat.prod_factorization_pow_eq_self h.rest_ne_zero, hrest]
  exact Finsupp.prod_filter_mul_prod_filter_not _ _ _

theorem forall_mem_reverse_primes_iff (x k : ℕ) : (∀ p ∈ primes.reverse, k ∣ x.factorization p) ↔
    k ∣ commonMultiplicity x := by
  rw [commonMultiplicity, Finset.dvd_gcd_iff]
  simp only [mem_reverse_primes_iff]
  refine forall₂_congr fun p hp => ?_
  rw [Nat.factorization_def x (Nat.prime_of_mem_primesBelow hp)]

theorem After.multiplicity_eq (h : After x primes.reverse s) :
    s.multiplicity = commonMultiplicity x :=
  Nat.dvd_left_iff_eq.1 fun k =>
    (h.dvd_multiplicity_iff k).trans (forall_mem_reverse_primes_iff x k)

theorem extracts_of? (hx : x ≠ 0) (hs : of? x = some s) : Extracts x s where
  rest_mul_prod := (after_of? hx hs).rest_mul_prod hx
  not_dvd_rest _ hp hlt hdvd := hlt.not_ge ((after_of? hx hs).trialLimit_le hp hdvd)
  multiplicity_eq := (after_of? hx hs).multiplicity_eq

/-- Trial division gives up on numbers whose small primes have coprime multiplicities, and only on
them. -/
theorem of?_eq_none_iff (hx : x ≠ 0) : of? x = none ↔ commonMultiplicity x = 1 := by
  constructor
  · intro hnone
    have hall := (forall_mem_reverse_primes_iff x (commonMultiplicity x)).2 dvd_rfl
    exact eq_one_of_of? hx hnone fun p hp => hall p (List.mem_reverse.2 hp)
  · intro hone
    cases hs : of? x with
    | none => rfl
    | some s =>
      have h := after_of? hx hs
      exact absurd (h.multiplicity_eq.trans hone) h.multiplicity_ne_one

theorem isPerfectPower_of_of?_eq_none (hx : 1 < x) (hnone : of? x = none) :
    isPerfectPower x = false := by
  rw [isPerfectPower, if_neg hx.not_ge, hnone]

/-- Trial division extracts the small part of any number from two on, or gives up when its
multiplicities are coprime, and then the number is no power. Each of its divisions finds a
multiplicity exactly, in chunks as large as they may be. -/
theorem of?_exact (hx : 2 ≤ x) :
    (∀ s, of? x = some s → Extracts x s) ∧
      (of? x = none ↔ commonMultiplicity x = 1) ∧
      (of? x = none → isPerfectPower x = false) ∧
      (commonMultiplicity x = 0 ↔ ∀ p, p.Prime → p < trialLimit → ¬ p ∣ x) ∧
      ∀ p rest : ℕ, 2 ≤ p → 0 < rest →
        divideOut p rest = (padicValNat p rest, rest / p ^ padicValNat p rest) ∧
          ¬ p ∣ rest / p ^ padicValNat p rest ∧ (p < chunkBound → DividesInChunks p rest) := by
  have hx0 : x ≠ 0 := by omega
  refine ⟨fun s => extracts_of? hx0, of?_eq_none_iff hx0, isPerfectPower_of_of?_eq_none hx,
    commonMultiplicity_eq_zero_iff hx0, fun p rest hp hrest => ?_⟩
  exact ⟨divideOut_eq_padicValNat hp hrest.ne', (dividesFor_padicValNat hp hrest.ne').stops,
    fun hlt => dividesInChunks hp hlt hrest.ne'⟩

/-- A twentieth power with chunks of both its small primes, a number whose small primes have coprime
multiplicities, and a composite number that goes twenty times, in two chunks and four rounds more. -/
theorem of?_exact_of_chunks :
    of? (2 ^ 40 * 3 ^ 60 * 1031 ^ 20) = some ⟨20, 1031 ^ 20⟩ ∧
      Extracts (2 ^ 40 * 3 ^ 60 * 1031 ^ 20) ⟨20, 1031 ^ 20⟩ ∧
      commonMultiplicity (2 ^ 4 * 3 ^ 3) = 1 ∧ isPerfectPower (2 ^ 4 * 3 ^ 3) = false ∧
      divideOut 12 (12 ^ 20 * 5) = (20, 5) ∧ DividesInChunks 12 (12 ^ 20 * 5) := by
  have hsome : of? (2 ^ 40 * 3 ^ 60 * 1031 ^ 20) = some ⟨20, 1031 ^ 20⟩ := by decide +kernel
  have hnone : of? (2 ^ 4 * 3 ^ 3) = none := by decide +kernel
  obtain ⟨hextracts, -⟩ := of?_exact (x := 2 ^ 40 * 3 ^ 60 * 1031 ^ 20) (by decide)
  obtain ⟨-, hcoprime, hfalse, -, hdivide⟩ := of?_exact (x := 2 ^ 4 * 3 ^ 3) (by decide)
  obtain ⟨heq, -, hchunks⟩ := hdivide 12 (12 ^ 20 * 5) (by decide) (by decide)
  have htwenty : padicValNat 12 (12 ^ 20 * 5) = 20 := by decide +kernel
  rw [htwenty] at heq
  exact ⟨hsome, hextracts _ hsome, hcoprime.1 hnone, hfalse hnone, heq, hchunks (by decide)⟩

end SmallPart

end Surds
