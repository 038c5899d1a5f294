import Mathlib.Data.Nat.Factorization.Root
import Surds.Proofs.PerfectPower.SmallPart
import Surds.Proofs.Root
import Surds.Proofs.Scalar.Power

/-!
# Perfect powers

A number is a `k`-th power when `k` divides the multiplicities of all primes in it
(`exists_pow_eq_iff`). So trial division reduces the question to the rest of the number : `x` is a
`k`-th power exactly when `k` divides the multiplicity that was found and the rest is a `k`-th power
(`After.exists_pow_eq_iff`). The filter holds no such power back (`SmallPart.hasDegree_iff`), and
the bit length of the rest bounds its prime degrees, because no prime of fewer than `trialBits` bits
is left in it (`After.le_log2_div`). Hence the test is exact (`isPerfectPower_iff_exists`), up to
the length at which degrees would exceed `exponentLimit`.

In a canonical fraction numerator and denominator have no prime in common, so that their product is
a `k`-th power exactly when both are. Then the larger of them is one too, and a caller that has it
tested first gets the same answer (`Fraction.isPerfectPower_eq`).
-/

namespace Surds

variable {k p x : ℕ}

/-! ## Degrees -/

/-- A `k`-th power has each prime a multiple of `k` times. -/
theorem exists_pow_eq_iff (hk : k ≠ 0) (hx : x ≠ 0) :
    (∃ r, r ^ k = x) ↔ ∀ p, k ∣ x.factorization p := by
  constructor
  · rintro ⟨r, rfl⟩ p
    exact ⟨r.factorization p, by rw [Nat.factorization_pow, Finsupp.smul_apply, smul_eq_mul]⟩
  · intro h
    refine ⟨Nat.floorRoot k x, Nat.eq_of_factorization_eq ?_ hx fun p => ?_⟩
    · exact pow_ne_zero k (Nat.floorRoot_ne_zero.2 ⟨hk, hx⟩)
    · rw [Nat.factorization_pow, Nat.factorization_floorRoot, Finsupp.smul_apply, smul_eq_mul,
        Finsupp.floorDiv_apply, Nat.floorDiv_eq_div, Nat.mul_div_cancel' (h p)]

/-- A power of some degree from two on is one of a prime degree. -/
theorem exists_prime_degree_iff {α : Type} [Monoid α] {a : α} :
    (∃ (r : α) (k : ℕ), 2 ≤ k ∧ r ^ k = a) ↔ ∃ k : ℕ, k.Prime ∧ ∃ r : α, r ^ k = a := by
  constructor
  · rintro ⟨r, k, hk, rfl⟩
    obtain ⟨p, hp, m, rfl⟩ := Nat.exists_prime_and_dvd (n := k) (by omega)
    exact ⟨p, hp, r ^ m, by rw [← pow_mul, mul_comm]⟩
  · rintro ⟨k, hk, r, hr⟩
    exact ⟨r, k, hk.two_le, hr⟩

/-! ## After trial division -/

namespace SmallPart

variable {tried : List ℕ} {s : SmallPart}

/-- The multiplicity stands for the primes that were tried and the rest for the others. -/
theorem After.exists_pow_eq_iff (h : After x tried s) (hk : k ≠ 0) (hx : x ≠ 0) :
    (∃ r, r ^ k = x) ↔ k ∣ s.multiplicity ∧ ∃ r, r ^ k = s.rest := by
  rw [Surds.exists_pow_eq_iff hk hx, Surds.exists_pow_eq_iff hk h.rest_ne_zero,
    h.dvd_multiplicity_iff]
  simp only [h.factorization_rest]
  constructor
  · intro hall
    refine ⟨fun q _ => hall q, fun q => ?_⟩
    split_ifs
    · exact dvd_zero k
    · exact hall q
  · rintro ⟨htried, hrest⟩ q
    by_cases hq : q ∈ tried
    · exact htried q hq
    · simpa [hq] using hrest q

theorem After.rest_dvd (h : After x tried s) (hx : x ≠ 0) : s.rest ∣ x := by
  refine (Nat.factorization_le_iff_dvd h.rest_ne_zero hx).1 fun q => ?_
  rw [h.factorization_rest]
  split_ifs
  · exact Nat.zero_le _
  · exact le_rfl

theorem After.trialLimit_le (h : After x primes.reverse s) (hp : p.Prime) (hdvd : p ∣ s.rest) :
    trialLimit ≤ p := by
  have hnot := (h.factorization_of_dvd hp hdvd).1
  rw [List.mem_reverse, mem_primes_iff] at hnot
  exact not_lt.1 fun hlt => hnot ⟨hlt, hp⟩

/-- A root of the rest has at least `trialBits` bits after the first, and so for each degree. -/
theorem After.le_log2_div (h : After x primes.reverse s) (hrest : s.rest ≠ 1) {r : ℕ}
    (hr : r ^ k = s.rest) : k ≤ s.rest.log2 / trialBits := by
  have hk : k ≠ 0 := by
    rintro rfl
    exact hrest (hr ▸ pow_zero r)
  have hr1 : r ≠ 1 := by
    rintro rfl
    exact hrest (hr ▸ one_pow k)
  have hr0 : r ≠ 0 := by
    rintro rfl
    exact h.rest_ne_zero (hr ▸ zero_pow hk)
  have hlarge : 2 ^ trialBits ≤ r := by
    have hdvd : r.minFac ∣ s.rest := hr ▸ dvd_pow (Nat.minFac_dvd r) hk
    exact (h.trialLimit_le (Nat.minFac_prime hr1) hdvd).trans (Nat.minFac_le (by omega))
  rw [Nat.le_div_iff_mul_le (by decide), mul_comm, Nat.le_log2 h.rest_ne_zero, pow_mul, ← hr]
  exact Nat.pow_le_pow_left hlarge k

/-- The filter and the search for a root find every prime degree of the rest that the multiplicity
allows. -/
theorem hasDegree_iff : s.hasDegree k = true ↔
    k.Prime ∧ k ∣ s.multiplicity ∧ k ≤ exponentLimit ∧ ∃ r, r ^ k = s.rest := by
  have hmult : s.multiplicity = 0 ∨ s.multiplicity % k = 0 ↔ k ∣ s.multiplicity := by
    rw [← Nat.dvd_iff_mod_eq_zero]
    exact or_iff_right_of_imp fun h0 => h0 ▸ dvd_zero k
  simp only [hasDegree, Bool.and_eq_true, Bool.or_eq_true, decide_eq_true_eq, isPrime_iff, hmult,
    and_assoc]
  refine and_congr_right fun hprime => and_congr_right fun _ => ?_
  have hroot : (exactRoot? k s.rest).isSome ↔ ∃ r, r ^ k = s.rest := by
    simp only [Option.isSome_iff_exists, exactRoot?_eq_some_iff hprime.pos]
  rw [hroot]
  refine and_iff_right_of_imp ?_
  rintro ⟨-, r, hr⟩
  exact hr ▸ mayBePower_pow r k

/-- What is asked of the rest decides whether `x` is a power. -/
theorem After.exists_prime_degree_iff (h : After x primes.reverse s) (hx : x ≠ 0)
    (hlim : x.log2 < 10 * 2 ^ 32) :
    (s.rest = 1 ∨ ∃ k < s.rest.log2 / trialBits + 1, s.hasDegree k = true) ↔
      ∃ k, k.Prime ∧ ∃ r, r ^ k = x := by
  simp only [hasDegree_iff]
  constructor
  · rintro (hrest | ⟨k, -, hk, hdvd, -, hroot⟩)
    · -- Nothing is left, so any degree will do that the multiplicity allows.
      obtain ⟨k, hk, hdvd⟩ := Nat.exists_prime_and_dvd h.multiplicity_ne_one
      exact ⟨k, hk, (h.exists_pow_eq_iff hk.ne_zero hx).2 ⟨hdvd, 1, by rw [one_pow, hrest]⟩⟩
    · exact ⟨k, hk, (h.exists_pow_eq_iff hk.ne_zero hx).2 ⟨hdvd, hroot⟩⟩
  · rintro ⟨k, hk, hpow⟩
    obtain ⟨hdvd, r, hr⟩ := (h.exists_pow_eq_iff hk.ne_zero hx).1 hpow
    refine or_iff_not_imp_left.2 fun hrest => ⟨k, ?_, hk, hdvd, ?_, r, hr⟩
    · exact Nat.lt_succ_of_le (h.le_log2_div hrest hr)
    · have hle : k ≤ s.rest.log2 / trialBits := h.le_log2_div hrest hr
      have hlog : s.rest.log2 ≤ x.log2 := (Nat.le_log2 hx).2 <|
        (Nat.log2_self_le h.rest_ne_zero).trans
          (Nat.le_of_dvd (Nat.pos_of_ne_zero hx) (h.rest_dvd hx))
      unfold trialBits at hle
      unfold exponentLimit
      omega

end SmallPart

/-! ## Integers -/

theorem lt_two_pow_of_lt {a b : ℕ} (hab : a ≤ b) (hx : x < 2 ^ a) : x < 2 ^ b :=
  hx.trans_le (Nat.pow_le_pow_right two_pos hab)

/-- The test finds out whether a number is a power. -/
theorem isPerfectPower_iff_exists (hx : x < 2 ^ (10 * 2 ^ 32)) :
    isPerfectPower x = true ↔ ∃ r k : ℕ, 2 ≤ k ∧ r ^ k = x := by
  unfold isPerfectPower
  split_ifs with hsmall
  · refine iff_of_true rfl ⟨x, 2, le_rfl, ?_⟩
    rcases Nat.le_one_iff_eq_zero_or_eq_one.1 hsmall with rfl | rfl <;> rfl
  · have h0 : x ≠ 0 := fun h => hsmall (h ▸ Nat.zero_le 1)
    rw [exists_prime_degree_iff]
    cases hs : SmallPart.of? x with
    | none =>
      refine iff_of_false nofun ?_
      rintro ⟨k, hk, hpow⟩
      exact hk.ne_one (SmallPart.eq_one_of_of? h0 hs fun p _ =>
        (exists_pow_eq_iff hk.ne_zero h0).1 hpow p)
    | some s =>
      rw [← (SmallPart.after_of? h0 hs).exists_prime_degree_iff h0 ((Nat.log2_lt h0).2 hx)]
      simp only [Bool.or_eq_true, decide_eq_true_eq, List.any_eq_true, List.mem_range]

/-- For an integer the magnitude counts, and zero and one are powers of themselves. -/
theorem isPerfectPower_natAbs_iff {x : ℤ} (hx : x.natAbs < 2 ^ (10 * 2 ^ 32)) :
    isPerfectPower x.natAbs = true ↔ x.natAbs ≤ 1 ∨ ∃ r k : ℕ, 2 ≤ k ∧ r ^ k = x.natAbs := by
  rw [isPerfectPower_iff_exists hx]
  refine (or_iff_right_of_imp fun hsmall => ?_).symm
  exact (isPerfectPower_iff_exists hx).1 (if_pos hsmall)

/-- The opposite of a cube with a small and a large prime in it. -/
theorem isPerfectPower_neg_cube :
    (-70138418624 : ℤ).natAbs < 2 ^ (10 * 2 ^ 32) ∧
      isPerfectPower (-70138418624 : ℤ).natAbs = true := by
  have hx : (-70138418624 : ℤ).natAbs < 2 ^ (10 * 2 ^ 32) :=
    lt_two_pow_of_lt (by decide : 64 ≤ 10 * 2 ^ 32) (by decide)
  exact ⟨hx, (isPerfectPower_natAbs_iff hx).2 (.inr ⟨4 * 1031, 3, by decide, by decide⟩)⟩

/-! ## Fractions -/

theorem exists_pow_mul_iff {a b : ℕ} (hcop : a.Coprime b) :
    (∃ r, r ^ k = a * b) ↔ (∃ r, r ^ k = a) ∧ ∃ r, r ^ k = b := by
  constructor
  · rintro ⟨r, hr⟩
    obtain ⟨c, hc⟩ := exists_eq_pow_of_mul_eq_pow (Nat.isUnit_iff.2 hcop) hr.symm
    obtain ⟨d, hd⟩ := exists_eq_pow_of_mul_eq_pow (Nat.isUnit_iff.2 hcop.symm)
      (mul_comm a b ▸ hr.symm)
    exact ⟨⟨c, hc.symm⟩, d, hd.symm⟩
  · rintro ⟨⟨c, rfl⟩, d, rfl⟩
    exact ⟨c * d, mul_pow c d k⟩

namespace Fraction

variable {f : Fraction}

/-- A rational number in lowest terms is a power when both its parts are. -/
theorem Canonical.exists_rat_pow_iff (hf : f.Canonical) :
    (∃ s : ℚ, s ^ k = |(Scalar.frac f).value|) ↔ ∃ r, r ^ k = f.num.natAbs * f.den := by
  have hnum : |(Scalar.frac f).value|.num = f.num.natAbs := by
    rw [Rat.num_abs_eq_abs_num, Scalar.Canonical.num_value (a := .frac f) hf, Int.abs_eq_natAbs]
    rfl
  have hden : |(Scalar.frac f).value|.den = f.den := by
    rw [Rat.den_abs_eq_den, Scalar.Canonical.den_value (a := .frac f) hf]
    rfl
  rw [exists_pow_mul_iff hf.2]
  constructor
  · rintro ⟨s, hs⟩
    rw [← hs] at hnum hden
    refine ⟨⟨s.num.natAbs, ?_⟩, s.den, ?_⟩
    · rw [← Int.natAbs_pow, ← Rat.num_pow, hnum, Int.natAbs_natCast]
    · rw [← Rat.den_pow, hden]
  · rintro ⟨⟨a, ha⟩, b, hb⟩
    refine ⟨a / b, ?_⟩
    rw [div_pow, ← Rat.num_div_den |(Scalar.frac f).value|, hnum, hden, ← ha, ← hb]
    push_cast
    rfl

theorem isPerfectPower_of_mul {a b : ℕ} (hcop : a.Coprime b) (ha : a ≠ 0) (hb : b ≠ 0)
    (hlim : a * b < 2 ^ (10 * 2 ^ 32)) (h : Surds.isPerfectPower (a * b) = true) :
    Surds.isPerfectPower a = true ∧ Surds.isPerfectPower b = true := by
  have hale : a ≤ a * b := Nat.le_mul_of_pos_right a (Nat.pos_of_ne_zero hb)
  have hble : b ≤ a * b := Nat.le_mul_of_pos_left b (Nat.pos_of_ne_zero ha)
  obtain ⟨r, k, hk, hr⟩ := (isPerfectPower_iff_exists hlim).1 h
  obtain ⟨⟨c, hc⟩, d, hd⟩ := (exists_pow_mul_iff hcop).1 ⟨r, hr⟩
  exact ⟨(isPerfectPower_iff_exists (hale.trans_lt hlim)).2 ⟨c, k, hk, hc⟩,
    (isPerfectPower_iff_exists (hble.trans_lt hlim)).2 ⟨d, k, hk, hd⟩⟩

/-- Testing the larger part first, or one part where the other is one, does not change the answer,
which is that for the product of both. -/
theorem isPerfectPower_eq (hf : f.Canonical) (hlim : f.num.natAbs * f.den < 2 ^ (10 * 2 ^ 32))
    (expected : Bool) :
    f.isPerfectPower expected = Surds.isPerfectPower (f.num.natAbs * f.den) := by
  have hn : f.num.natAbs ≠ 0 := Int.natAbs_ne_zero.2 hf.num_ne_zero
  unfold isPerfectPower
  rw [if_neg hn]
  split_ifs with hone hreject
  · rw [hone, one_mul]
  · rw [Bool.and_eq_true, Bool.not_eq_true'] at hreject
    refine (Bool.eq_false_iff.2 fun hprod => ?_).symm
    obtain ⟨habove, hbelow⟩ := isPerfectPower_of_mul hf.2 hn hf.den_pos.ne' hlim hprod
    have hlarger : Surds.isPerfectPower (max f.num.natAbs f.den) = true := by
      rcases max_choice f.num.natAbs f.den with h | h
      · rw [h, habove]
      · rw [h, hbelow]
    simp [hlarger] at hreject
  · rfl

/-- A caller's guess never changes the answer, which is whether the magnitude is a power of a
rational number. -/
theorem isPerfectPower_iff_exists_rat (hf : f.Canonical)
    (hlim : f.num.natAbs * f.den < 2 ^ (10 * 2 ^ 32)) :
    f.isPerfectPower true = f.isPerfectPower false ∧
      ∀ expected, f.isPerfectPower expected = true ↔
        ∃ (s : ℚ) (k : ℕ), 2 ≤ k ∧ s ^ k = |(Scalar.frac f).value| := by
  refine ⟨by rw [isPerfectPower_eq hf hlim, isPerfectPower_eq hf hlim], fun expected => ?_⟩
  rw [isPerfectPower_eq hf hlim, isPerfectPower_iff_exists hlim, exists_prime_degree_iff,
    exists_prime_degree_iff]
  simp only [hf.exists_rat_pow_iff]

/-- The opposite of a cube is one in magnitude, also to a caller that does not expect it. -/
theorem isPerfectPower_neg_eight_twenty_sevenths :
    (Fraction.mk (-8) 27).Canonical ∧ (-8 : ℤ).natAbs * 27 < 2 ^ (10 * 2 ^ 32) ∧
      (Fraction.mk (-8) 27).isPerfectPower false = true := by
  have hf : (Fraction.mk (-8) 27).Canonical := by decide
  have hlim : (-8 : ℤ).natAbs * 27 < 2 ^ (10 * 2 ^ 32) :=
    lt_two_pow_of_lt (by decide : 64 ≤ 10 * 2 ^ 32) (by decide)
  refine ⟨hf, hlim, ((isPerfectPower_iff_exists_rat hf hlim).2 false).2 ⟨2 / 3, 3, by decide, ?_⟩⟩
  rw [Scalar.value, Rat.mkRat_eq_div]
  norm_num

end Fraction

end Surds
