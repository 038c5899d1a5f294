import Surds.Proofs.Surd.Canonical
import Surds.Proofs.Surd.Carry

/-!
# Folding a product of powers

`Surd.ofPowers` folds every power of a product : it takes whole periods out of the exponent
(`Base.turns`), moves the number that they make into the coefficient (`Base.contribution`) and
leaves the rest of the exponent beside it (`Base.remainder`). A fractional power of the imaginary
unit is not folded, and a power of zero leaves nothing but zero.

`FoldOf c f x` says that `x` is the coefficient `c` times the bases to the exponents `f` after
folding. There is one such surd (`FoldOf.unique`), and `foldOf_ofPowers` and `foldOf_mul` say of
which coefficient and exponents the results of `ofPowers` and `mul` are made, for all canonical
arguments. On regular exponents folding is carrying (`contribution_of_regular`,
`remainder_of_regular`).
-/

namespace Surds

namespace Base

/-- Whole periods are taken out of an exponent, unless it is a fractional exponent of the imaginary
unit. -/
def Folds : Base → ℚ → Prop
  | imaginary, e => e.den = 1
  | int _, _ => True

instance : (b : Base) → (e : ℚ) → Decidable (b.Folds e)
  | imaginary, e => inferInstanceAs (Decidable (e.den = 1))
  | int _, _ => inferInstanceAs (Decidable True)

/-- The number of periods that are taken out of an exponent. -/
def turns (b : Base) (e : ℚ) : ℤ :=
  if b.Folds e then ⌊e / b.period⌋ else 0

/-- The number that a power contributes to the coefficient. -/
def contribution (b : Base) (e : ℚ) : ℚ :=
  if b = int 0 ∧ e ≠ 0 then 0 else b.turn ^ b.turns e

/-- The exponent that remains beside the coefficient. -/
def remainder (b : Base) (e : ℚ) : ℚ :=
  if b = int 0 ∨ b = int 1 then 0 else e - b.period * b.turns e

variable {b : Base} {e : ℚ}

theorem Regular.folds : ∀ {b : Base} {e : ℚ}, b.Regular e → b.Folds e
  | imaginary, _, ⟨k, hk⟩ => by rw [hk]; exact Rat.den_intCast k
  | int _, _, _ => trivial

theorem turns_of_folds (h : b.Folds e) : b.turns e = ⌊e / b.period⌋ :=
  if_pos h

theorem turns_of_not_folds (h : ¬ b.Folds e) : b.turns e = 0 :=
  if_neg h

@[simp] theorem turns_zero (b : Base) : b.turns 0 = 0 := by
  unfold turns
  split_ifs <;> simp

@[simp] theorem contribution_zero (b : Base) : b.contribution 0 = 1 := by
  simp [contribution]

@[simp] theorem remainder_zero (b : Base) : b.remainder 0 = 0 := by
  simp [remainder]

/-- Powers of zero with another exponent than zero contribute zero. -/
theorem contribution_int_zero (h : e ≠ 0) : (int 0).contribution e = 0 :=
  if_pos ⟨rfl, h⟩

theorem contribution_eq (h : b = int 0 → e = 0) : b.contribution e = b.turn ^ b.turns e :=
  if_neg fun hb => hb.2 (h hb.1)

theorem contribution_ne_zero (h : b = int 0 → e = 0) : b.contribution e ≠ 0 := by
  by_cases hb : b = int 0
  · rw [h hb, contribution_zero]
    exact one_ne_zero
  · rw [contribution_eq h]
    exact zpow_ne_zero _ (turn_ne_zero hb)

theorem contribution_of_regular (h : b.Regular e) : b.contribution e = b.carry e := by
  rw [contribution_eq, turns_of_folds h.folds, carry]
  rintro rfl
  exact h rfl

theorem remainder_of_regular (h : b.Regular e) : b.remainder e = b.rest e := by
  unfold remainder
  split_ifs with hb
  · rcases hb with rfl | rfl
    · rw [h rfl, rest_zero]
    · exact (if_pos rfl).symm
  · rw [rest_eq_sub b e fun h1 => hb (.inr h1), turns_of_folds h.folds]

/-! ## One power -/

/-- A fraction is no whole number. -/
theorem not_folds_frac {r : Fraction} (hr : r.Canonical) :
    ¬ imaginary.Folds (Scalar.frac r).value := by
  intro h
  have hden := Scalar.Canonical.den_value (a := .frac r) hr
  rw [show (Scalar.frac r).value.den = 1 from h] at hden
  exact hr.1.ne hden

/-- The number taken out of a power is the contribution of its exponent. -/
theorem value_carried : ∀ {b : Base} {e v : Scalar}, e.Canonical → b.carried e = .ok v →
    v.value = b.contribution e.value
  | imaginary, .whole k, v, _, h => by
    rw [carried_imaginary_whole] at h
    rw [← Except.ok.inj h, Scalar.value_whole, contribution_of_regular (regular_imaginary k),
      carry_imaginary]
    split_ifs
    · simp
    · simp
  | imaginary, .frac r, v, he, h => by
    rw [carried_imaginary_frac] at h
    rw [← Except.ok.inj h, contribution_eq (b := imaginary) nofun,
      turns_of_not_folds (not_folds_frac he), zpow_zero, Scalar.value_one]
  | int n, .whole k, v, _, h => by
    rw [eq_ofRat_of_intPow h, Scalar.value_ofRat, Scalar.value_whole]
    by_cases hn : n = 0 ∧ k ≠ 0
    · obtain ⟨rfl, hk⟩ := hn
      rw [contribution_int_zero (Int.cast_ne_zero.2 hk), Int.cast_zero, zero_zpow _ hk]
    · have hreg : (int n).Regular k := fun h0 => by
        rw [not_ne_iff.1 (not_and.1 hn h0), Int.cast_zero]
      rw [contribution_of_regular hreg, carry_int, Int.floor_intCast]
  | int n, .frac r, v, he, h => by
    by_cases hn : n = 0
    · subst hn
      rw [carried_int_frac, if_pos rfl] at h
      rw [contribution_int_zero (Fraction.Canonical.value_ne_zero he), eq_ofRat_of_intPow h,
        Scalar.value_ofRat, Int.cast_zero, zero_zpow _ (Fraction.Canonical.num_ne_zero he)]
    · rw [carried_int_frac, if_neg hn] at h
      rw [contribution_of_regular (regular_int hn _), eq_ofRat_of_intPow h, Scalar.value_ofRat,
        carry_int, Fraction.floor_eq]

/-- The exponent that is kept is the remainder of the exponent. -/
theorem value_kept : ∀ {b : Base} {e : Scalar}, e.Canonical →
    ((b.kept e).map Scalar.value).getD 0 = b.remainder e.value
  | imaginary, .whole k, _ => by
    rw [Scalar.value_whole, remainder_of_regular (regular_imaginary k), rest_imaginary,
      kept_imaginary_whole]
    rcases Int.emod_two_eq_zero_or_one k with hk | hk
    · simp [hk]
    · simp [hk]
  | imaginary, .frac r, he => by
    simp [kept_imaginary_frac, remainder, turns_of_not_folds (not_folds_frac he)]
  | int n, .whole k, _ => by
    simp [kept_int_whole, remainder, turns_of_folds (b := int n) trivial, period]
  | int n, .frac r, he => by
    by_cases hn : n = 0 ∨ n = 1
    · simp [kept_int_frac, remainder, hn]
    · have hsub : (int n).remainder (Scalar.frac r).value =
          (Scalar.frac r).value - ⌊(Scalar.frac r).value⌋ := by
        simp [remainder, hn, turns_of_folds (b := int n) trivial, period]
      rw [hsub, Int.self_sub_floor, ← Fraction.value_fractionalPart he]
      simp [kept_int_frac, hn]

/-- A power of zero that is computed has no negative exponent. -/
theorem nonneg_of_intPow_zero {k : ℤ} {v : Scalar} (h : intPow 0 k = .ok v) : 0 ≤ k := by
  rw [intPow_eq] at h
  split_ifs at h with hneg
  exact not_lt.1 fun hk => hneg ⟨rfl, hk⟩

theorem nonneg_of_carried_int_zero {v : Scalar} :
    ∀ {e : Scalar}, (int 0).carried e = .ok v → 0 ≤ e.value
  | .whole k, h => by
    rw [Scalar.value_whole]
    exact Int.cast_nonneg (nonneg_of_intPow_zero h)
  | .frac r, h => by
    rw [carried_int_frac, if_pos rfl] at h
    exact Rat.mkRat_nonneg (nonneg_of_intPow_zero h) _

end Base

/-! ## Products -/

theorem prod_contribution_ne_zero {f : Base →₀ ℚ} (h0 : f (.int 0) = 0) :
    f.prod Base.contribution ≠ 0 :=
  Finset.prod_ne_zero_iff.2 fun b _ => Base.contribution_ne_zero fun hb => by rw [hb, h0]

/-- A power of zero makes the product zero. -/
theorem prod_contribution_eq_zero {f : Base →₀ ℚ} (h0 : f (.int 0) ≠ 0) :
    f.prod Base.contribution = 0 :=
  Finset.prod_eq_zero (Finsupp.mem_support_iff.2 h0) (Base.contribution_int_zero h0)

namespace Surd

variable {c : ℚ} {f : Base →₀ ℚ} {a v : Scalar} {p : Exponents} {x y z : Surd}

theorem value_carriedInto :
    ∀ {entries : List (Base × Scalar)} {a : Scalar}, a.Canonical →
      (∀ r ∈ entries, r.2.Canonical) → carriedInto a entries = .ok v →
      v.value = a.value * (entries.map fun r => r.1.contribution r.2.value).prod
  | [], a, _, _, h => by
    rw [← Except.ok.inj h, List.map_nil, List.prod_nil, mul_one]
  | r :: rest, a, ha, hr, h => by
    rw [carriedInto, List.foldlM_cons, bind_eq_ok_iff] at h
    obtain ⟨a', ha', hrest⟩ := h
    obtain ⟨w, hw, hmul⟩ := bind_eq_ok_iff.1 ha'
    have hwcan := Base.canonical_of_carried hw
    rw [← Except.ok.inj hmul] at hrest
    rw [value_carriedInto (Scalar.canonical_mul ha hwcan)
      (fun s hs => hr s (List.mem_cons_of_mem _ hs)) hrest, Scalar.value_mul ha hwcan,
      Base.value_carried (hr r List.mem_cons_self) hw, List.map_cons, List.prod_cons, mul_assoc]

/-- If a product of powers is computed, every one of them is. -/
theorem exists_carried_of_carriedInto :
    ∀ {entries : List (Base × Scalar)} {a : Scalar}, carriedInto a entries = .ok v →
      ∀ r ∈ entries, ∃ w, r.1.carried r.2 = .ok w
  | [], _, _, r, hr => absurd hr List.not_mem_nil
  | s :: rest, a, h, r, hr => by
    rw [carriedInto, List.foldlM_cons, bind_eq_ok_iff] at h
    obtain ⟨a', ha', hrest⟩ := h
    obtain ⟨w, hw, -⟩ := bind_eq_ok_iff.1 ha'
    rcases List.mem_cons.1 hr with rfl | hr
    · exact ⟨w, hw⟩
    · exact exists_carried_of_carriedInto hrest r hr

/-- The exponent of zero is not negative in a product that is computed. -/
theorem nonneg_of_ofPowers (h : ofPowers a p = .ok x) : 0 ≤ p.toFinsupp (.int 0) := by
  obtain ⟨v, hv, -⟩ := ofPowers_eq_ok_iff.1 h
  cases hget : p.get? (.int 0) with
  | none => exact (Exponents.toFinsupp_of_get?_none hget).ge
  | some e =>
    obtain ⟨w, hw⟩ := exists_carried_of_carriedInto hv _ (Exponents.mem_entries_iff.2 hget)
    rw [Exponents.toFinsupp_of_get? hget]
    exact Base.nonneg_of_carried_int_zero hw

/-- The surd `x` is `c` times the bases to the exponents `f`, folded. -/
structure FoldOf (c : ℚ) (f : Base →₀ ℚ) (x : Surd) : Prop where
  canonical : x.Canonical
  coef : x.coef.value = c * f.prod Base.contribution
  /-- Beside a coefficient of zero nothing remains. -/
  powers : x ≠ scalar 0 → ∀ b, x.powers.toFinsupp b = b.remainder (f b)

theorem Canonical.eq_zero_iff (hx : x.Canonical) : x = scalar 0 ↔ x.coef.value = 0 := by
  constructor
  · rintro rfl
    exact Scalar.value_zero
  · intro h0
    exact hx.eq_zero (hx.coef_canonical.value_eq_zero_iff.1 h0)

theorem foldOf_ofPowers (ha : a.Canonical) (hp : p.Canonical) (h : ofPowers a p = .ok x) :
    FoldOf a.value p.toFinsupp x := by
  have hx := canonical_ofPowers ha hp h
  obtain ⟨v, hv, rfl⟩ := ofPowers_eq_ok_iff.1 h
  have hvalue : v.value = a.value * p.toFinsupp.prod Base.contribution := by
    rw [value_carriedInto ha hp hv, Exponents.prod_toFinsupp Base.contribution_zero]
  by_cases h0 : v = 0
  · rw [h0, Scalar.value_zero] at hvalue
    rw [if_pos h0] at hx ⊢
    exact ⟨hx, hvalue, fun hne => absurd rfl hne⟩
  · rw [if_neg h0] at hx ⊢
    refine ⟨hx, by rw [coef_collapse, hvalue], fun _ b => ?_⟩
    rw [powers_collapse, Exponents.toFinsupp_apply, Exponents.get?_filterMap]
    cases hb : p.get? b with
    | none => rw [Exponents.toFinsupp_of_get?_none hb, Base.remainder_zero]; rfl
    | some e =>
      rw [Exponents.toFinsupp_of_get? hb, ← Base.value_kept (hp.get? hb)]
      rfl

theorem FoldOf.eq_zero_iff (h : FoldOf c f x) :
    x = scalar 0 ↔ c = 0 ∨ f.prod Base.contribution = 0 := by
  rw [h.canonical.eq_zero_iff, h.coef, mul_eq_zero]

/-- Folding has one result. -/
theorem FoldOf.unique (hx : FoldOf c f x) (hy : FoldOf c f y) : x = y := by
  by_cases h0 : x = scalar 0
  · rw [h0, hy.eq_zero_iff.2 (hx.eq_zero_iff.1 h0)]
  · have hy0 : y ≠ scalar 0 := fun hy0 => h0 (hx.eq_zero_iff.2 (hy.eq_zero_iff.1 hy0))
    refine hx.canonical.ext hy.canonical (hx.canonical.coef_canonical.ext
      hy.canonical.coef_canonical (hx.coef.trans hy.coef.symm)) ?_
    refine hx.canonical.powers_ext hy.canonical fun b => ?_
    rw [hx.powers h0, hy.powers hy0]

/-! ## Multiplication -/

/-- A product is folded from the product of the coefficients and the sums of the exponents. -/
theorem foldOf_mul (hx : x.Canonical) (hy : y.Canonical) (h : x.mul y = .ok z) :
    FoldOf (x.coef.value * y.coef.value) (x.powers.toFinsupp + y.powers.toFinsupp) z := by
  rw [mul_eq_ofPowers] at h
  have hfold := foldOf_ofPowers (Scalar.canonical_mul hx.coef_canonical hy.coef_canonical)
    (hx.powers_canonical.add hy.powers_canonical) h
  rwa [Scalar.value_mul hx.coef_canonical hy.coef_canonical,
    Exponents.toFinsupp_add hx.powers_canonical hy.powers_canonical] at hfold

/-- A product is zero only if a factor is. -/
theorem eq_zero_iff_of_mul (hx : x.Canonical) (hy : y.Canonical) (h : x.mul y = .ok z) :
    z = scalar 0 ↔ x = scalar 0 ∨ y = scalar 0 := by
  have hprod : (x.powers.toFinsupp + y.powers.toFinsupp).prod Base.contribution ≠ 0 := by
    refine prod_contribution_ne_zero ?_
    rw [Finsupp.add_apply, hx.exponent_eq_zero (.inl rfl), hy.exponent_eq_zero (.inl rfl), add_zero]
  rw [(foldOf_mul hx hy h).eq_zero_iff, or_iff_left hprod, mul_eq_zero, ← hx.eq_zero_iff,
    ← hy.eq_zero_iff]

/-- Canonical surds commute. -/
theorem mul_eq_mul_swap (hx : x.Canonical) (hy : y.Canonical) : x.mul y = y.mul x := by
  obtain ⟨u, hu⟩ := exists_mul hx hy
  obtain ⟨v, hv⟩ := exists_mul hy hx
  have hfold := foldOf_mul hy hx hv
  rw [mul_comm, add_comm] at hfold
  rw [hu, hv, (foldOf_mul hx hy hu).unique hfold]

end Surd

end Surds
