import Mathlib.Data.Nat.Factorization.Basic
import Surds.Proofs.PerfectPower.Residue

/-!
# Trial division

Dividing out a number finds its multiplicity and leaves the rest, however the divisions are grouped
(`divideOut_eq_padicValNat`, and for primes `divideOut_eq`).

`SmallPart.After x tried s` says that `s` is the state of trial division of `x` after the primes of
`tried` : it knows the greatest common divisor of their multiplicities in `x`, and what is left of
`x` has no prime of `tried` and all others as often as `x`. Dividing out one more prime leads from
one such state to the next, or finds that the multiplicities have no common divisor
(`After.of_divide`, `After.of_divide_eq_none`), and so does the whole of trial division
(`after_of?`, `eq_one_of_of?`).
-/

namespace Surds

variable {d p x : ℕ}

/-! ## Dividing out one number -/

/-- `x` is the power of `d` to the first number times the second, which `d` does not divide. -/
structure SplitsOff (d x : ℕ) (a : ℕ × ℕ) : Prop where
  pow_mul : d ^ a.1 * a.2 = x
  not_dvd : ¬ d ∣ a.2

theorem divideAll_of_dvd (hd : 1 < d) (hx : 0 < x) (h : x % d = 0) :
    divideAll d x = ((divideAll d (x / d)).1 + 1, (divideAll d (x / d)).2) := by
  rw [divideAll, if_pos ⟨hd, hx, h⟩]

theorem divideAll_of_not_dvd (h : ¬ x % d = 0) : divideAll d x = (0, x) := by
  rw [divideAll, if_neg fun hc => h hc.2.2]

theorem splitsOff_divideAll (hd : 1 < d) : ∀ {x : ℕ}, 0 < x → SplitsOff d x (divideAll d x) := by
  intro x
  induction x using Nat.strong_induction_on with
  | _ x ih =>
    intro hx
    by_cases h : x % d = 0
    · have hmul : d * (x / d) = x := Nat.mul_div_cancel' (Nat.dvd_of_mod_eq_zero h)
      have hpos : 0 < x / d := Nat.pos_of_mul_pos_left (hmul.symm ▸ hx)
      obtain ⟨hpow, hnot⟩ := ih (x / d) (Nat.div_lt_self hx hd) hpos
      rw [divideAll_of_dvd hd hx h]
      refine ⟨?_, hnot⟩
      rw [pow_succ', mul_assoc, hpow, hmul]
    · rw [divideAll_of_not_dvd h]
      exact ⟨by rw [pow_zero, one_mul], fun hdvd => h (Nat.mod_eq_zero_of_dvd hdvd)⟩

theorem SplitsOff.snd_pos {a : ℕ × ℕ} (h : SplitsOff d x a) : 0 < a.2 :=
  Nat.pos_of_ne_zero fun h0 => h.not_dvd (h0 ▸ dvd_zero d)

/-- Splitting off leaves one possibility, since `d` goes into `x` a certain number of times. -/
theorem SplitsOff.eq_padicValNat {a : ℕ × ℕ} (h : SplitsOff d x a) (hd : 1 < d) (hx : x ≠ 0) :
    a = (padicValNat d x, x / d ^ padicValNat d x) := by
  have hcount : padicValNat d x = a.1 :=
    congrArg Prod.fst (Nat.maxPowDvdDiv_of_pow_mul_eq hx h.pow_mul h.not_dvd)
  refine Prod.ext hcount.symm ?_
  rw [hcount]
  exact Nat.eq_div_of_mul_eq_right (Nat.pow_pos (Nat.zero_lt_of_lt hd)).ne' h.pow_mul

/-- Chunks are powers of the number, with their exponents. -/
theorem chunkFrom_eq (p : ℕ) {power exp : ℕ} (h : power = p ^ exp) :
    (chunkFrom p power exp).1 = p ^ (chunkFrom p power exp).2 ∧
      exp ≤ (chunkFrom p power exp).2 := by
  fun_induction chunkFrom p power exp with
  | case1 power exp _ ih =>
    obtain ⟨hpow, hle⟩ := ih (by rw [h, pow_succ])
    exact ⟨hpow, Nat.le_of_succ_le hle⟩
  | case2 power exp => exact ⟨h, le_rfl⟩

/-- Dividing out in chunks and then one by one is dividing out. -/
theorem splitsOff_divideOut (hp : 1 < p) (hx : 0 < x) : SplitsOff p x (divideOut p x) := by
  obtain ⟨hchunk, hsize⟩ := chunkFrom_eq p (pow_one p).symm
  have hone : 1 < (chunkFrom p p 1).1 := hchunk ▸ Nat.one_lt_pow (by omega) hp
  have hchunks := splitsOff_divideAll hone hx
  have hsingles := splitsOff_divideAll hp hchunks.snd_pos
  refine ⟨?_, hsingles.not_dvd⟩
  calc p ^ (divideOut p x).1 * (divideOut p x).2
      = (p ^ (chunkFrom p p 1).2) ^ (divideAll (chunkFrom p p 1).1 x).1 *
          (p ^ (divideAll p (divideAll (chunkFrom p p 1).1 x).2).1 * (divideOut p x).2) := by
        rw [← pow_mul, ← mul_assoc, ← pow_add, mul_comm (chunkFrom p p 1).2]
        rfl
    _ = (chunkFrom p p 1).1 ^ (divideAll (chunkFrom p p 1).1 x).1 *
          (divideAll (chunkFrom p p 1).1 x).2 := by
        rw [← hchunk]
        exact congrArg _ hsingles.pow_mul
    _ = x := hchunks.pow_mul

theorem divideOut_eq_padicValNat (hp : 1 < p) (hx : x ≠ 0) :
    divideOut p x = (padicValNat p x, x / p ^ padicValNat p x) :=
  (splitsOff_divideOut hp (Nat.pos_of_ne_zero hx)).eq_padicValNat hp hx

/-- Dividing out a prime finds its multiplicity and leaves the rest. -/
theorem divideOut_eq (hp : p.Prime) (hx : x ≠ 0) :
    divideOut p x = (x.factorization p, ordCompl[p] x) := by
  rw [divideOut_eq_padicValNat hp.one_lt hx, Nat.factorization_def x hp]

/-! ## The state of trial division -/

namespace SmallPart

variable {tried : List ℕ} {s t : SmallPart}

/-- The state of trial division of `x` after the primes of `tried`. -/
structure After (x : ℕ) (tried : List ℕ) (s : SmallPart) : Prop where
  rest_ne_zero : s.rest ≠ 0
  factorization_rest :
    ∀ q, s.rest.factorization q = if q ∈ tried then 0 else x.factorization q
  /-- The multiplicity is the greatest common divisor of those of the tried primes. -/
  dvd_multiplicity_iff : ∀ k, k ∣ s.multiplicity ↔ ∀ q ∈ tried, k ∣ x.factorization q
  multiplicity_ne_one : s.multiplicity ≠ 1

theorem after_start (hx : x ≠ 0) : After x [] ⟨0, x⟩ where
  rest_ne_zero := hx
  factorization_rest _ := (if_neg List.not_mem_nil).symm
  dvd_multiplicity_iff k := iff_of_true (dvd_zero k) nofun
  multiplicity_ne_one := zero_ne_one

/-- A prime that is still there was not tried, and its multiplicity is that in `x`. -/
theorem After.factorization_of_dvd (h : After x tried s) (hp : p.Prime) (hdvd : p ∣ s.rest) :
    p ∉ tried ∧ s.rest.factorization p = x.factorization p := by
  have hpos := hp.factorization_pos_of_dvd h.rest_ne_zero hdvd
  rw [h.factorization_rest] at hpos ⊢
  split_ifs at hpos ⊢ with htried
  · exact absurd hpos (lt_irrefl 0)
  · exact ⟨htried, rfl⟩

/-- The common divisors after one more prime. -/
theorem After.dvd_gcd_iff (h : After x tried s) (k : ℕ) :
    k ∣ Nat.gcd s.multiplicity (x.factorization p) ↔ ∀ q ∈ p :: tried, k ∣ x.factorization q := by
  rw [Nat.dvd_gcd_iff, h.dvd_multiplicity_iff, List.forall_mem_cons, and_comm]

theorem divide_of_dvd (hp : p.Prime) (h0 : s.rest ≠ 0) (hdvd : p ∣ s.rest) :
    s.divide p =
      if Nat.gcd s.multiplicity (s.rest.factorization p) = 1 then none
      else some ⟨Nat.gcd s.multiplicity (s.rest.factorization p), ordCompl[p] s.rest⟩ := by
  rw [divide, if_pos (Nat.mod_eq_zero_of_dvd hdvd), divideOut_eq hp h0]

theorem divide_of_not_dvd (hdvd : ¬ p ∣ s.rest) : s.divide p = some s :=
  if_neg (mt Nat.dvd_of_mod_eq_zero hdvd)

/-- Dividing out one more prime leads to the next state. -/
theorem After.of_divide (h : After x tried s) (hp : p.Prime) (ht : s.divide p = some t) :
    After x (p :: tried) t := by
  by_cases hdvd : p ∣ s.rest
  · obtain ⟨-, hcount⟩ := h.factorization_of_dvd hp hdvd
    rw [divide_of_dvd hp h.rest_ne_zero hdvd] at ht
    split_ifs at ht with hone
    rw [← Option.some.inj ht]
    refine ⟨(Nat.ordCompl_pos p h.rest_ne_zero).ne', fun q => ?_, hcount ▸ h.dvd_gcd_iff, hone⟩
    simp only [Nat.factorization_ordCompl]
    by_cases hq : q = p
    · rw [hq, Finsupp.erase_same, if_pos List.mem_cons_self]
    · simp only [Finsupp.erase_ne hq, h.factorization_rest, List.mem_cons, hq, false_or]
  · rw [divide_of_not_dvd hdvd] at ht
    rw [← Option.some.inj ht]
    -- A prime that is not left was tried before or does not divide `x`.
    have hzero : s.rest.factorization p = 0 := Nat.factorization_eq_zero_of_not_dvd hdvd
    refine ⟨h.rest_ne_zero, fun q => ?_, fun k => ?_, h.multiplicity_ne_one⟩
    · by_cases hq : q = p
      · rw [hq, hzero, if_pos List.mem_cons_self]
      · simp only [h.factorization_rest, List.mem_cons, hq, false_or]
    · rw [h.dvd_multiplicity_iff, List.forall_mem_cons]
      refine (and_iff_right_of_imp fun hall => ?_).symm
      rw [h.factorization_rest] at hzero
      split_ifs at hzero with htried
      · exact hall p htried
      · exact hzero ▸ dvd_zero k

/-- Trial division is given up only when no number but one divides all multiplicities. -/
theorem After.of_divide_eq_none (h : After x tried s) (hp : p.Prime) (hnone : s.divide p = none)
    {k : ℕ} (hk : ∀ q ∈ p :: tried, k ∣ x.factorization q) : k = 1 := by
  by_cases hdvd : p ∣ s.rest
  · rw [divide_of_dvd hp h.rest_ne_zero hdvd, (h.factorization_of_dvd hp hdvd).2] at hnone
    split_ifs at hnone with hone
    rw [← Nat.dvd_one, ← hone]
    exact (h.dvd_gcd_iff k).2 hk
  · rw [divide_of_not_dvd hdvd] at hnone
    cases hnone

/-! ## The run of trial division -/

/-- Dividing out the primes of a list, one after the other. -/
theorem After.of_foldlM : ∀ {l tried : List ℕ} {s : SmallPart}, (∀ p ∈ l, p.Prime) →
    After x tried s → l.foldlM divide s = some t → After x (l.reverse ++ tried) t
  | [], tried, s, _, h, ht => Option.some.inj ht ▸ h
  | p :: l, tried, s, hl, h, ht => by
    obtain ⟨u, hu, ht⟩ := Option.bind_eq_some_iff.1 ht
    have hnext := h.of_divide (hl p List.mem_cons_self) hu
    rw [List.reverse_cons, List.append_assoc, List.singleton_append]
    exact of_foldlM (fun q hq => hl q (List.mem_cons_of_mem _ hq)) hnext ht

theorem After.eq_one_of_foldlM : ∀ {l tried : List ℕ} {s : SmallPart}, (∀ p ∈ l, p.Prime) →
    After x tried s → l.foldlM divide s = none →
      ∀ {k : ℕ}, (∀ q ∈ l.reverse ++ tried, k ∣ x.factorization q) → k = 1
  | [], _, _, _, _, hnone, _, _ => nomatch hnone
  | p :: l, tried, s, hl, h, hnone, k, hk => by
    rw [List.reverse_cons, List.append_assoc, List.singleton_append] at hk
    cases hs : s.divide p with
    | none =>
      exact h.of_divide_eq_none (hl p List.mem_cons_self) hs
        fun q hq => hk q (List.mem_append_right _ hq)
    | some u =>
      rw [List.foldlM_cons, hs] at hnone
      exact eq_one_of_foldlM (fun q hq => hl q (List.mem_cons_of_mem _ hq))
        (h.of_divide (hl p List.mem_cons_self) hs) hnone hk

theorem mem_primes_iff : p ∈ primes ↔ p < trialLimit ∧ p.Prime := by
  rw [primes, List.mem_filter, List.mem_range, isPrime_iff]

/-- The outcome of trial division is the state after all primes below the limit. -/
theorem after_of? (hx : x ≠ 0) (hs : of? x = some s) : After x primes.reverse s := by
  have h := (after_start hx).of_foldlM (fun p hp => (mem_primes_iff.1 hp).2) hs
  rwa [List.append_nil] at h

theorem eq_one_of_of? (hx : x ≠ 0) (hnone : of? x = none) {k : ℕ}
    (hk : ∀ p ∈ primes, k ∣ x.factorization p) : k = 1 := by
  have hprimes : ∀ p ∈ primes, p.Prime := fun p hp => (mem_primes_iff.1 hp).2
  refine (after_start hx).eq_one_of_foldlM hprimes hnone fun q hq => ?_
  rw [List.append_nil, List.mem_reverse] at hq
  exact hk q hq

end SmallPart

end Surds
