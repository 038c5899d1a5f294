import Surds.Proofs.Power.Exact

/-!
# Refused powers

A power is refused for two causes. Zero has no negative powers (`DividesByZero`), and no whole power
is computed whose exponent is over `exponentLimit` (`ExceedsLimit`). For a fractional exponent the
limit stands for three numbers : the degree, which is looked at first; the numerator of the exponent
where a part of the base has an exact root; and the floor of the exponent where it has none. The
floor for the denominator of the base is that of the opposite exponent, so its magnitude is larger
by one than that for the numerator, or smaller by one.

The steps after these whole powers never fail : the product of two canonical surds exists, and the
exponents that are kept carry nothing (`exists_ofPowers_residualPowers`). So `power_eq_error_iff`
says exactly when a power is refused and when it is computed.
-/

namespace Surds

open Surd

variable {n : ℤ} {r : ℕ} {b e v : Scalar} {f g : Fraction} {w : Failure}

/-! ## The causes -/

/-- A negative power of zero is asked for, in a degree that is computed. -/
def DividesByZero (b e : Scalar) : Prop :=
  e.den ≤ exponentLimit ∧ b = 0 ∧ e.num < 0

/-- The power of exponent `e` of a part `c` of the base takes a whole power over the limit : that of
an exact root to the numerator, or that of `c` to the floor of the exponent. -/
def PartExceedsLimit (c : ℕ) (e : Fraction) : Prop :=
  2 ≤ c ∧ ((∃ r : ℕ, r ^ e.den = c) ∧ exponentLimit < e.num.natAbs ∨
    (∀ r : ℕ, r ^ e.den ≠ c) ∧ exponentLimit < ⌊(e.num : ℚ) / e.den⌋.natAbs)

/-- A whole exponent, a degree, or an exponent of a part of the base is over the limit. -/
def ExceedsLimit (b : Scalar) : Scalar → Prop
  | .whole k => b ≠ 0 ∧ b ≠ 1 ∧ b ≠ -1 ∧ exponentLimit < k.natAbs
  | .frac e => exponentLimit < e.den ∨ PartExceedsLimit b.num.natAbs e ∨ PartExceedsLimit b.den (-e)

theorem not_partExceedsLimit_one (e : Fraction) : ¬ PartExceedsLimit 1 e :=
  fun h => absurd h.1 (by decide)

theorem partExceedsLimit_of_root {c : ℕ} (hr : r ^ g.den = c) :
    PartExceedsLimit c g ↔ 2 ≤ c ∧ exponentLimit < g.num.natAbs := by
  refine and_congr_right fun _ => ?_
  rw [and_iff_right ⟨r, hr⟩]
  exact or_iff_left fun h => h.1 r hr

/-- A part without an exact root is neither zero nor one. -/
theorem partExceedsLimit_of_no_root {c : ℕ} (hq : 0 < g.den) (hnone : ∀ r : ℕ, r ^ g.den ≠ c) :
    PartExceedsLimit c g ↔ exponentLimit < g.floor.natAbs := by
  have h0 : c ≠ 0 := fun h => hnone 0 (by rw [zero_pow hq.ne', h])
  have h1 : c ≠ 1 := fun h => hnone 1 (by rw [one_pow, h])
  rw [PartExceedsLimit, and_iff_right (by omega), Rat.floor_intCast_div_natCast,
    and_iff_right hnone]
  exact or_iff_right fun h => h.1.elim hnone

/-! ## Integers -/

/-- A power of an exact root is refused for the whole power only. -/
theorem ofExactRoot_eq_error_iff {negative : Bool} {p : ℤ} {q : ℕ} :
    ofExactRoot negative r p q = .error w ↔ intPow r p = .error w := by
  rw [ofExactRoot_eq_ite]
  split_ifs
  · rw [bind_eq_error_iff]
    exact or_iff_left fun ⟨_, _, h⟩ => nomatch h
  · rw [bind_eq_error_iff]
    refine or_iff_left ?_
    rintro ⟨v, hv, h⟩
    obtain ⟨y, hy⟩ := exists_imaginaryPower p
    obtain ⟨z, hz⟩ :=
      exists_mul (y := scalar v) (canonical_imaginaryPower hy) (canonical_of_intPow hv)
    rw [hy] at h
    exact nomatch hz.symm.trans h
  · rw [bind_eq_error_iff, intPow_eq_error_iff, intPow_eq_error_iff, Int.natAbs_neg, neg_eq_zero]
    exact or_iff_left fun ⟨_, _, h⟩ => nomatch h

/-- The powers that stay beside the coefficient carry nothing that could be refused. -/
theorem exists_ofPowers_residualPowers (hg : g.Canonical) (hn : n ≠ 0) (v : Scalar) :
    ∃ x, ofPowers v (residualPowers n g) = .ok x := by
  have hfrac : (Scalar.frac g.fractionalPart).Canonical := hg.fractionalPart.1
  have hfloor : ⌊(Scalar.frac g.fractionalPart).value⌋.natAbs ≤ exponentLimit := by
    rw [Fraction.value_fractionalPart hg, Int.floor_fract]
    exact Nat.zero_le _
  have hint : ∀ m : ℤ, m ≠ 0 → ∃ u, (Base.int m).carried (.frac g.fractionalPart) = .ok u :=
    fun m hm => Base.exists_carried hfrac (fun h0 => absurd (Base.int.inj h0) hm) hfloor
  refine exists_ofPowers v fun s hs => ?_
  rw [residualPowers_eq_ite] at hs
  split_ifs at hs with hsq hone
  · rw [List.mem_singleton.1 hs]
    exact ⟨_, rfl⟩
  · rcases eq_or_mem_of_mem_insertEntry hs with rfl | hs
    · exact hint _ (by omega)
    · rw [List.mem_singleton.1 hs]
      exact ⟨_, rfl⟩
  · rw [List.mem_singleton.1 hs]
    exact hint n hn

/-- An exponent over zero asks for the root of degree zero. No canonical exponent does. -/
theorem ofIntPower_of_den_eq_zero (n : ℤ) (hg : g.den = 0) :
    ofIntPower n g = .error .zerothRoot := by
  rw [ofIntPower_eq_bind, hg]
  rfl

/-- With a canonical exponent the root is always one that exists or does not, and what is refused
is a whole power or the degree. -/
theorem ofIntPower_eq_error_iff (hg : g.Canonical) : ofIntPower n g = .error w ↔
    w = .divisionByZero ∧ g.den ≤ exponentLimit ∧ n = 0 ∧ g.num < 0 ∨
      w = .exponentTooLarge ∧ (exponentLimit < g.den ∨ PartExceedsLimit n.natAbs g) := by
  rw [ofIntPower_eq_match hg.den_pos, bind_eq_error_iff]
  simp only [withinLimit_eq_error_iff, withinLimit_eq_ok_iff, and_assoc, exists_and_left,
    exists_eq_left]
  by_cases hdegree : exponentLimit < g.den
  · simp [hdegree, Nat.not_le.2 hdegree]
  · simp only [hdegree, Nat.not_lt.1 hdegree, and_false, false_or, true_and]
    cases hroot : exactRoot? g.den n.natAbs with
    | some r =>
      have hr := (exactRoot?_eq_some_iff hg.den_pos).1 hroot
      have hzero : r = 0 ↔ n = 0 := by
        rw [← Int.natAbs_eq_zero, ← hr, pow_eq_zero_iff hg.den_pos.ne']
      have hone : 1 < r ↔ 2 ≤ n.natAbs := by
        rw [← hr]
        exact (Nat.one_lt_pow_iff hg.den_pos.ne').symm
      rw [ofExactRoot_eq_error_iff, intPow_eq_error_iff, partExceedsLimit_of_root hr,
        Int.natAbs_natCast, Nat.cast_eq_zero, hzero, hone]
    | none =>
      have hnone := (exactRoot?_eq_none_iff hg.den_pos).1 hroot
      have hn := ne_zero_of_no_root hg.den_pos hnone
      have hunit : 1 < n.natAbs := by
        have h1 : n.natAbs ≠ 1 := fun h => hnone 1 (by rw [one_pow, h])
        omega
      rw [bind_eq_error_iff, intPow_eq_error_iff, partExceedsLimit_of_no_root hg.den_pos hnone]
      have hkept : ¬ ∃ v, intPow n g.floor = .ok v ∧
          ofPowers v (residualPowers n g) = .error w := by
        rintro ⟨v, -, h⟩
        obtain ⟨x, hx⟩ := exists_ofPowers_residualPowers hg hn v
        exact nomatch hx.symm.trans h
      simp only [hkept, hn, hunit, or_false, false_and, and_false, false_or, true_and]

/-! ## Scalars -/

/-- Neither part of a fraction is zero, so its powers are refused for the limit only. -/
theorem ofFractionPower_eq_error_iff (hf : f.Canonical) (hg : g.Canonical) :
    ofFractionPower f g = .error w ↔ w = .exponentTooLarge ∧
      (exponentLimit < g.den ∨ PartExceedsLimit f.num.natAbs g ∨ PartExceedsLimit f.den (-g)) := by
  have habove : ∀ u, ofIntPower f.num g = .error u ↔
      u = .exponentTooLarge ∧ (exponentLimit < g.den ∨ PartExceedsLimit f.num.natAbs g) := by
    simp [ofIntPower_eq_error_iff hg, hf.num_ne_zero]
  have hbelow : ∀ u, ofIntPower f.den (-g) = .error u ↔
      u = .exponentTooLarge ∧ (exponentLimit < g.den ∨ PartExceedsLimit f.den (-g)) := by
    simp [ofIntPower_eq_error_iff hg.neg, hf.den_pos.ne']
  rw [ofFractionPower_eq_bind, bind_eq_error_iff, habove]
  constructor
  · rintro (⟨hw, h⟩ | ⟨x, hx, h⟩)
    · exact ⟨hw, h.imp_right .inl⟩
    · rcases bind_eq_error_iff.1 h with h | ⟨y, hy, h⟩
      · obtain ⟨hw, h⟩ := (hbelow w).1 h
        exact ⟨hw, h.imp_right .inr⟩
      · obtain ⟨z, hz⟩ :=
          exists_mul (isPower_ofIntPower hg hx).canonical (isPower_ofIntPower hg.neg hy).canonical
        cases hz.symm.trans h
  · rintro ⟨rfl, h⟩
    by_cases hpart : exponentLimit < g.den ∨ PartExceedsLimit f.num.natAbs g
    · exact .inl ⟨rfl, hpart⟩
    · obtain ⟨x, hx⟩ := exists_eq_ok_iff.2 fun u hu => hpart ((habove u).1 hu).2
      have hlimit := (or_assoc.2 h).resolve_left hpart
      exact .inr ⟨x, hx, bind_eq_error_iff.2 (.inl ((hbelow _).2 ⟨rfl, .inr hlimit⟩))⟩

theorem power_whole_eq_error_iff (hb : b.Canonical) {k : ℤ} : power b (.whole k) = .error w ↔
    w = .divisionByZero ∧ DividesByZero b (.whole k) ∨
      w = .exponentTooLarge ∧ ExceedsLimit b (.whole k) := by
  have hdegree : DividesByZero b (.whole k) ↔ b = 0 ∧ k < 0 :=
    and_iff_right (by decide : 1 ≤ exponentLimit)
  rw [power_whole, bind_eq_error_iff, Scalar.pow_eq_error_iff hb, hdegree, ExceedsLimit]
  simp only [ne_eq, hb.value_eq_zero_iff, hb.value_eq_one_iff, hb.value_eq_neg_one_iff]
  exact or_iff_left fun ⟨_, _, h⟩ => nomatch h

theorem power_frac_eq_error_iff (hg : g.Canonical) : ∀ {b : Scalar}, b.Canonical →
    (power b (.frac g) = .error w ↔ w = .divisionByZero ∧ DividesByZero b (.frac g) ∨
      w = .exponentTooLarge ∧ ExceedsLimit b (.frac g))
  | .whole n, _ => by
    have hzero : Scalar.whole n = 0 ↔ n = 0 := ⟨Scalar.whole.inj, congrArg Scalar.whole⟩
    rw [power_whole_frac, ofIntPower_eq_error_iff hg, DividesByZero, ExceedsLimit, hzero]
    simp only [Scalar.num_whole, Scalar.num_frac, Scalar.den_whole, Scalar.den_frac,
      not_partExceedsLimit_one, or_false]
  | .frac f, hf => by
    have hzero : ¬ DividesByZero (.frac f) (.frac g) := fun h => nomatch h.2.1
    have hcause := or_iff_right (b := w = .exponentTooLarge ∧ ExceedsLimit (.frac f) (.frac g))
      fun h : w = .divisionByZero ∧ _ => hzero h.2
    rw [power_frac_frac]
    exact (ofFractionPower_eq_error_iff hf hg).trans hcause.symm

/-- A power is refused for the two causes exactly, and computed in every other case. -/
theorem power_eq_error_iff (hb : b.Canonical) (he : e.Canonical) :
    (∀ w, power b e = .error w ↔ w = .divisionByZero ∧ DividesByZero b e ∨
      w = .exponentTooLarge ∧ ExceedsLimit b e) ∧
      ((∃ z, power b e = .ok z) ↔ ¬ DividesByZero b e ∧ ¬ ExceedsLimit b e) := by
  have herror : ∀ w, power b e = .error w ↔ w = .divisionByZero ∧ DividesByZero b e ∨
      w = .exponentTooLarge ∧ ExceedsLimit b e := fun w => by
    cases e with
    | whole k => exact power_whole_eq_error_iff hb
    | frac g => exact power_frac_eq_error_iff he hb
  refine ⟨herror, ?_⟩
  rw [exists_eq_ok_iff, ← not_or]
  simp only [ne_eq, herror, ← not_exists, exists_or, exists_eq_left]

/-- The floor of the exponent is the limit, and that of the opposite exponent is over it. So the
numerator could be raised to the power, and the denominator cannot. -/
theorem power_eq_error_of_denominator :
    ¬ PartExceedsLimit 2 ⟨8589934591, 2⟩ ∧ PartExceedsLimit 3 (-⟨8589934591, 2⟩) ∧
      power (.frac ⟨2, 3⟩) (.frac ⟨8589934591, 2⟩) = .error .exponentTooLarge := by
  have hnone : ∀ c, exactRoot? 2 c = none → ∀ r : ℕ, r ^ 2 ≠ c := fun c =>
    (exactRoot?_eq_none_iff two_pos).1
  have habove : ¬ PartExceedsLimit 2 ⟨8589934591, 2⟩ := by
    rw [partExceedsLimit_of_no_root two_pos (hnone 2 rfl)]
    decide
  have hbelow : PartExceedsLimit 3 (-⟨8589934591, 2⟩) := by
    rw [partExceedsLimit_of_no_root two_pos (hnone 3 rfl)]
    decide
  refine ⟨habove, hbelow, ?_⟩
  exact ((power_eq_error_iff (b := .frac ⟨2, 3⟩) (e := .frac ⟨8589934591, 2⟩) (by decide)
    (by decide)).1 _).2 (.inr ⟨rfl, .inr (.inr hbelow)⟩)

end Surds
