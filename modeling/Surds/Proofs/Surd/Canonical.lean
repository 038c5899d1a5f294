import Mathlib.RingTheory.Coprime.Lemmas
import Surds.Proofs.Scalar.Power
import Surds.Proofs.Surd.Exponents
import Surds.Surd.Basic

/-!
# The canonical form

A surd is canonical (`Surd.Canonical`) when nothing in it can be simplified : an integer under a
root is not zero or one and has an exponent between zero and one, a product has a coefficient other
than zero, powers of the same kind, and no simpler form.

Every operation gives canonical surds : `canonical_collapse`, `canonical_ofPowers`,
`canonical_neg`, `canonical_mul`. A canonical surd is what `collapse` makes of its coefficient and
powers (`Canonical.collapse_eq`), so it is known from them (`Canonical.ext`), and the product of two
canonical surds always exists (`exists_mul`).
-/

namespace Surds

/-! ## Kept powers -/

/-- The exponents that a base has in the canonical form : one or a fraction for the imaginary unit,
a fraction between zero and one for an integer other than zero and one. -/
def Base.Keeps : Base → Scalar → Prop
  | imaginary, .whole k => k = 1
  | imaginary, .frac r => r.Canonical
  | int _, .whole _ => False
  | int n, .frac r => n ≠ 0 ∧ n ≠ 1 ∧ r.Canonical ∧ 0 < r.num ∧ r.num < r.den

/-- The floor of a canonical fraction is that of its value. -/
theorem Fraction.floor_eq (r : Fraction) : r.floor = ⌊(Scalar.frac r).value⌋ := by
  rw [Scalar.value, Rat.mkRat_eq_div, Scalar.num_frac, Scalar.den_frac,
    Rat.floor_intCast_div_natCast]
  rfl

theorem Fraction.value_fractionalPart {r : Fraction} (h : r.Canonical) :
    (Scalar.frac r.fractionalPart).value = Int.fract (Scalar.frac r).value := by
  have hden : (r.den : ℚ) ≠ 0 := Nat.cast_ne_zero.2 h.den_pos.ne'
  rw [← Int.self_sub_floor, ← Fraction.floor_eq]
  simp only [Scalar.value, Scalar.num_frac, Scalar.den_frac, Rat.mkRat_eq_div, fractionalPart,
    floor, Int.emod_def]
  push_cast
  field_simp

/-- What a fraction exceeds its floor by is again in lowest terms, and lies between zero and one. -/
theorem Fraction.Canonical.fractionalPart {r : Fraction} (h : r.Canonical) :
    r.fractionalPart.Canonical ∧ 0 < r.fractionalPart.num ∧
      r.fractionalPart.num < r.fractionalPart.den := by
  have hden : (0 : ℤ) < r.den := by have := h.1; omega
  have hcop : IsCoprime (r.num % r.den) r.den := by
    have hnd : IsCoprime r.num r.den := Int.isCoprime_iff_gcd_eq_one.2 h.2
    rw [Int.emod_def, sub_eq_add_neg, ← mul_neg]
    exact IsCoprime.add_mul_left_left hnd _
  have hcan : r.fractionalPart.Canonical := ⟨h.1, Int.isCoprime_iff_gcd_eq_one.1 hcop⟩
  have hne : r.num % r.den ≠ 0 := hcan.num_ne_zero
  exact ⟨hcan, (Int.emod_nonneg _ hden.ne').lt_of_ne' hne, Int.emod_lt_of_pos _ hden⟩

namespace Base

variable {b : Base} {e v : Scalar}

theorem Keeps.canonical : ∀ {b : Base} {e : Scalar}, b.Keeps e → e.Canonical
  | _, .whole _, _ => trivial
  | imaginary, .frac _, h => h
  | int _, .frac _, h => h.2.2.1

theorem Keeps.ne_int_zero : ∀ {b : Base} {e : Scalar}, b.Keeps e → b ≠ int 0
  | imaginary, _, _ => nofun
  | int _, .whole _, h => h.elim
  | int _, .frac _, h => fun h0 => h.1 (int.inj h0)

theorem Keeps.ne_int_one : ∀ {b : Base} {e : Scalar}, b.Keeps e → b ≠ int 1
  | imaginary, _, _ => nofun
  | int _, .whole _, h => h.elim
  | int _, .frac _, h => fun h1 => h.2.1 (int.inj h1)

theorem Keeps.value_ne_zero : ∀ {b : Base} {e : Scalar}, b.Keeps e → e.value ≠ 0
  | imaginary, .whole k, h => by
    obtain rfl : k = 1 := h
    simp
  | int _, .whole _, h => h.elim
  | imaginary, .frac _, h => Fraction.Canonical.value_ne_zero h
  | int _, .frac _, h => h.2.2.1.value_ne_zero

/-- An integer keeps exponents between zero and one. -/
theorem Keeps.value_mem {n : ℤ} : ∀ {e : Scalar}, (int n).Keeps e → 0 < e.value ∧ e.value < 1
  | .whole _, h => h.elim
  | .frac r, ⟨_, _, hcan, hpos, hlt⟩ => by
    have hden : (0 : ℚ) < r.den := by exact_mod_cast hcan.den_pos
    rw [Scalar.value, Rat.mkRat_eq_div]
    exact ⟨div_pos (by exact_mod_cast hpos) hden, (div_lt_one hden).2 (by exact_mod_cast hlt)⟩

/-- Splitting an exponent leaves one that the base keeps. -/
theorem keeps_of_kept :
    ∀ {b : Base} {e e' : Scalar}, e.Canonical → b.kept e = some e' → b.Keeps e'
  | imaginary, .whole k, e', _, h => by
    simp only [kept_imaginary_whole, Option.ite_none_right_eq_some, Option.some.injEq] at h
    rw [← h.2]
    exact rfl
  | imaginary, .frac r, e', he, h => by
    rw [← Option.some.inj h]
    exact he
  | int n, .frac r, e', he, h => by
    simp only [kept_int_frac, Option.ite_none_left_eq_some, Option.some.injEq, not_or] at h
    obtain ⟨⟨h0, h1⟩, rfl⟩ := h
    exact ⟨h0, h1, Fraction.Canonical.fractionalPart he⟩

theorem canonical_of_carried : ∀ {b : Base} {e : Scalar}, b.carried e = .ok v → v.Canonical
  | imaginary, .whole k, h => by
    rw [← Except.ok.inj h]
    split_ifs
    · exact trivial
    · exact trivial
  | imaginary, .frac r, h => by
    rw [← Except.ok.inj h]
    exact trivial
  | int _, .whole _, h => canonical_of_intPow h
  | int n, .frac r, h => by
    rw [carried_int_frac, ← apply_ite₂ intPow] at h
    exact canonical_of_intPow h

/-- A power is split unless it is a power of zero or its floor is over the limit. -/
theorem exists_carried (he : e.Canonical) (h0 : b = int 0 → e.value = 0)
    (hlim : ⌊e.value⌋.natAbs ≤ exponentLimit) : ∃ v, b.carried e = .ok v := by
  match b with
  | imaginary => cases e <;> exact ⟨_, rfl⟩
  | int n =>
    by_cases hn : n = 0
    · have hval : e = 0 := he.value_eq_zero_iff.1 (h0 (by rw [hn]))
      subst hn hval
      exact ⟨1, rfl⟩
    · cases e with
      | whole k =>
        rw [Scalar.value_whole, Int.floor_intCast] at hlim
        exact ⟨_, intPow_eq_ok hn hlim⟩
      | frac r =>
        rw [← Fraction.floor_eq] at hlim
        exact ⟨_, by rw [carried_int_frac, if_neg hn, intPow_eq_ok hn hlim]⟩

end Base

namespace Surd

variable {c v : Scalar} {p : Exponents} {x y z : Surd}

/-! ## Canonical surds -/

/-- A product that cannot be simplified. -/
structure CanonicalProduct (c : Scalar) (p : Exponents) : Prop where
  coef_canonical : c.Canonical
  coef_ne_zero : c ≠ 0
  powers_ne_empty : p ≠ ∅
  keeps : ∀ r ∈ p.entries, r.1.Keeps r.2
  /-- With coefficient one it is neither the imaginary unit nor a single root. -/
  not_single : c = 1 → p ≠ .single .imaginary 1 ∧ ∀ n r, p ≠ .single (.int n) (.frac r)

/-- A surd in canonical form. -/
def Canonical : Surd → Prop
  | scalar a => a.Canonical
  | imaginary => True
  | root n r => (Base.int n).Keeps (.frac r)
  | product c p => CanonicalProduct c p

theorem canonical_ofPower? :
    ∀ {b : Base} {e : Scalar}, b.Keeps e → ofPower? b e = some x → x.Canonical
  | .imaginary, e, _, h => by
    simp only [ofPower?, Option.ite_none_right_eq_some, Option.some.injEq] at h
    rw [← h.2]
    exact trivial
  | .int n, .frac r, hb, h => by
    rw [← Option.some.inj h]
    exact hb
  | .int n, .whole k, _, h => by simp [ofPower?] at h

/-- The simplest form of a coefficient with kept powers is canonical. -/
theorem canonical_collapse (hc : c.Canonical) (h0 : c ≠ 0) (hp : ∀ r ∈ p.entries, r.1.Keeps r.2) :
    (collapse c p).Canonical := by
  have hproduct : p.entries ≠ [] →
      (c = 1 → p ≠ .single .imaginary 1 ∧ ∀ n r, p ≠ .single (.int n) (.frac r)) →
      (product c p).Canonical :=
    fun hne hsingle => ⟨hc, h0, fun h => hne (by rw [h]; rfl), hp, hsingle⟩
  unfold collapse
  split
  · exact hc
  · rename_i b e hentries
    have hne : p.entries ≠ [] := by simp [hentries]
    split_ifs with h1
    · cases hx : ofPower? b e with
      | some x => exact canonical_ofPower? (hp (b, e) (by simp [hentries])) hx
      | none =>
        refine hproduct hne fun _ => ⟨fun h => ?_, fun n r h => ?_⟩ <;>
        · rw [h] at hentries
          obtain ⟨rfl, rfl⟩ := Prod.mk.inj (List.singleton_inj.1 hentries)
          simp [ofPower?] at hx
    · exact hproduct hne fun h => absurd h h1
  · rename_i q r rest hentries
    have hlen : ∀ b e, p ≠ .single b e := fun b e h => by
      rw [h] at hentries
      simp [Exponents.single] at hentries
    exact hproduct (by simp [hentries]) fun _ => ⟨hlen _ _, fun n r => hlen _ _⟩

theorem Canonical.coef_canonical : ∀ {x : Surd}, x.Canonical → x.coef.Canonical
  | scalar _, h => h
  | imaginary, _ => trivial
  | root _ _, _ => trivial
  | product _ _, h => CanonicalProduct.coef_canonical h

theorem Canonical.keeps : ∀ {x : Surd}, x.Canonical → ∀ r ∈ x.powers.entries, r.1.Keeps r.2
  | scalar _, _, _, hr => absurd hr List.not_mem_nil
  | imaginary, _, r, hr => by
    rw [List.mem_singleton.1 hr]
    exact rfl
  | root _ _, h, r, hr => by
    rw [List.mem_singleton.1 hr]
    exact h
  | product _ _, h, r, hr => CanonicalProduct.keeps h r hr

theorem Canonical.powers_canonical (h : x.Canonical) : x.powers.Canonical :=
  fun r hr => (h.keeps r hr).canonical

/-- Zero is the only canonical surd with coefficient zero. -/
theorem Canonical.eq_zero : ∀ {x : Surd}, x.Canonical → x.coef = 0 → x = scalar 0
  | scalar _, _, h0 => congrArg scalar h0
  | imaginary, _, h0 => absurd h0 (by decide : (1 : Scalar) ≠ 0)
  | root _ _, _, h0 => absurd h0 (by decide : (1 : Scalar) ≠ 0)
  | product _ _, h, h0 => absurd h0 h.coef_ne_zero

/-- A canonical surd has the simplest form for its coefficient and powers. -/
theorem Canonical.collapse_eq : ∀ {x : Surd}, x.Canonical → collapse x.coef x.powers = x
  | scalar _, _ => rfl
  | imaginary, _ => rfl
  | root _ _, _ => rfl
  | product c p, h => by
    simp only [coef, powers]
    unfold collapse
    split
    · rename_i hentries
      exact absurd (Exponents.ext hentries) h.powers_ne_empty
    · rename_i b e hentries
      have hp : p = .single b e := Exponents.ext hentries
      split_ifs with h1
      · obtain ⟨himag, hroot⟩ := h.not_single h1
        match b, e, hp with
        | .imaginary, e, hp =>
          have he : e ≠ 1 := fun he => himag (he ▸ hp)
          simp [ofPower?, he]
        | .int n, .frac r, hp => exact absurd hp (hroot n r)
        | .int n, .whole k, hp => rfl
      · rfl
    · rfl

/-- A canonical surd is known from its coefficient and its powers. -/
theorem Canonical.ext (hx : x.Canonical) (hy : y.Canonical) (hc : x.coef = y.coef)
    (hp : x.powers = y.powers) : x = y := by
  rw [← hx.collapse_eq, ← hy.collapse_eq, hc, hp]

/-- A base occurs in a canonical surd when its exponent is not zero. -/
theorem Canonical.get?_eq_some_iff (hx : x.Canonical) {b : Base} {e : Scalar} :
    x.powers.get? b = some e ↔ e.Canonical ∧ e.value ≠ 0 ∧ x.powers.toFinsupp b = e.value := by
  constructor
  · intro h
    have hkeeps : b.Keeps e := hx.keeps _ (Exponents.mem_entries_iff.2 h)
    exact ⟨hkeeps.canonical, hkeeps.value_ne_zero, Exponents.toFinsupp_of_get? h⟩
  · rintro ⟨hcan, hne, hval⟩
    cases hget : x.powers.get? b with
    | none =>
      rw [Exponents.toFinsupp_of_get?_none hget] at hval
      exact absurd hval.symm hne
    | some e' =>
      rw [Exponents.toFinsupp_of_get? hget] at hval
      rw [(hx.powers_canonical.get? hget).ext hcan hval]

/-- The kept exponents are known from their values. -/
theorem Canonical.powers_ext (hx : x.Canonical) (hy : y.Canonical)
    (h : ∀ b, x.powers.toFinsupp b = y.powers.toFinsupp b) : x.powers = y.powers := by
  refine Exponents.ext_get? fun b => Option.ext fun e => ?_
  rw [hx.get?_eq_some_iff, hy.get?_eq_some_iff, h]

/-! ## Operations -/

theorem canonical_carriedInto :
    ∀ {entries : List (Base × Scalar)} {c : Scalar}, c.Canonical →
      carriedInto c entries = .ok v → v.Canonical
  | [], c, hc, h => by
    rw [← Except.ok.inj h]
    exact hc
  | r :: rest, c, hc, h => by
    rw [carriedInto, List.foldlM_cons, bind_eq_ok_iff] at h
    obtain ⟨c', hc', hrest⟩ := h
    obtain ⟨w, hw, hmul⟩ := bind_eq_ok_iff.1 hc'
    rw [← Except.ok.inj hmul] at hrest
    exact canonical_carriedInto (Scalar.canonical_mul hc (Base.canonical_of_carried hw)) hrest

theorem exists_carriedInto :
    ∀ {entries : List (Base × Scalar)} (c : Scalar),
      (∀ r ∈ entries, ∃ v, r.1.carried r.2 = .ok v) → ∃ v, carriedInto c entries = .ok v
  | [], c, _ => ⟨c, rfl⟩
  | r :: rest, c, h => by
    obtain ⟨w, hw⟩ := h r List.mem_cons_self
    obtain ⟨v, hv⟩ := exists_carriedInto (c * w) fun s hs => h s (List.mem_cons_of_mem _ hs)
    refine ⟨v, ?_⟩
    rw [carriedInto, List.foldlM_cons, bind_eq_ok_iff]
    exact ⟨c * w, bind_eq_ok_iff.2 ⟨w, hw, rfl⟩, hv⟩

theorem ofPowers_eq_ok_iff : ofPowers c p = .ok x ↔ ∃ v, carriedInto c p.entries = .ok v ∧
    x = if v = 0 then scalar 0 else collapse v (p.filterMap Base.kept) := by
  rw [ofPowers_eq_bind, bind_eq_ok_iff]
  refine exists_congr fun v => and_congr_right fun _ => ?_
  exact ⟨fun h => (Except.ok.inj h).symm, fun h => congrArg Except.ok h.symm⟩

/-- A product is computed when all its powers are. -/
theorem exists_ofPowers (c : Scalar) (h : ∀ r ∈ p.entries, ∃ v, r.1.carried r.2 = .ok v) :
    ∃ x, ofPowers c p = .ok x := by
  obtain ⟨v, hv⟩ := exists_carriedInto c h
  exact ⟨_, ofPowers_eq_ok_iff.2 ⟨v, hv, rfl⟩⟩

theorem canonical_ofPowers (hc : c.Canonical) (hp : p.Canonical) (h : ofPowers c p = .ok x) :
    x.Canonical := by
  obtain ⟨v, hv, rfl⟩ := ofPowers_eq_ok_iff.1 h
  split_ifs with h0
  · exact trivial
  · refine canonical_collapse (canonical_carriedInto hc hv) h0 fun r hr => ?_
    obtain ⟨b, e⟩ := r
    rw [Exponents.mem_entries_iff, Exponents.get?_filterMap, Option.bind_eq_some_iff] at hr
    obtain ⟨f, hf, hkept⟩ := hr
    exact Base.keeps_of_kept (hp.get? hf) hkept

theorem canonical_imaginaryPower {k : ℤ} (h : imaginaryPower k = .ok x) : x.Canonical := by
  rw [imaginaryPower_eq_ofPowers] at h
  exact canonical_ofPowers Scalar.canonical_one
    (Exponents.canonical_single (Scalar.canonical_whole k)) h

theorem exists_imaginaryPower (k : ℤ) : ∃ x, imaginaryPower k = .ok x := by
  rw [imaginaryPower_eq_ofPowers]
  refine exists_ofPowers 1 fun r hr => ?_
  rw [List.mem_singleton.1 hr]
  exact ⟨_, rfl⟩

theorem canonical_mul (hx : x.Canonical) (hy : y.Canonical) (h : x.mul y = .ok z) :
    z.Canonical := by
  rw [mul_eq_ofPowers] at h
  exact canonical_ofPowers (Scalar.canonical_mul hx.coef_canonical hy.coef_canonical)
    (hx.powers_canonical.add hy.powers_canonical) h

theorem canonical_neg (hx : x.Canonical) : (-x).Canonical := by
  by_cases h0 : x.coef = 0
  · rw [hx.eq_zero h0]
    exact trivial
  · refine canonical_collapse (Scalar.canonical_neg hx.coef_canonical) (fun hneg => h0 ?_) hx.keeps
    rw [← hx.coef_canonical.value_eq_zero_iff, ← neg_eq_zero, ← Scalar.value_neg, hneg,
      Scalar.value_zero]

/-- An integer exponent of a canonical surd lies between zero and one. -/
theorem Canonical.exponent_mem (hx : x.Canonical) (n : ℤ) :
    0 ≤ x.powers.toFinsupp (.int n) ∧ x.powers.toFinsupp (.int n) < 1 := by
  cases h : x.powers.get? (.int n) with
  | none =>
    rw [Exponents.toFinsupp_of_get?_none h]
    exact ⟨le_rfl, one_pos⟩
  | some e =>
    rw [Exponents.toFinsupp_of_get? h]
    have hmem := (hx.keeps _ (Exponents.mem_entries_iff.2 h)).value_mem
    exact ⟨hmem.1.le, hmem.2⟩

/-- Zero and one do not occur among the bases of a canonical surd. -/
theorem Canonical.exponent_eq_zero (hx : x.Canonical) {b : Base} (hb : b = .int 0 ∨ b = .int 1) :
    x.powers.toFinsupp b = 0 := by
  refine Exponents.toFinsupp_of_get?_none (Option.eq_none_iff_forall_ne_some.2 fun e he => ?_)
  have hkeeps := hx.keeps _ (Exponents.mem_entries_iff.2 he)
  rcases hb with hb | hb
  · exact hkeeps.ne_int_zero hb
  · exact hkeeps.ne_int_one hb

/-- Multiplying canonical surds never fails : a sum of two exponents carries at most one. -/
theorem exists_mul (hx : x.Canonical) (hy : y.Canonical) : ∃ z, x.mul y = .ok z := by
  have hadd := hx.powers_canonical.add hy.powers_canonical
  have hcarried : ∀ r ∈ (x.powers + y.powers).entries, ∃ v, r.1.carried r.2 = .ok v := by
    rintro ⟨b, e⟩ hr
    have he := Exponents.toFinsupp_of_get? (Exponents.mem_entries_iff.1 hr)
    rw [Exponents.toFinsupp_add hx.powers_canonical hy.powers_canonical, Finsupp.add_apply] at he
    cases b with
    | imaginary => cases e <;> exact ⟨_, rfl⟩
    | int n =>
      refine Base.exists_carried (hadd _ hr) (fun hb => ?_) ?_
      · rw [← he, hx.exponent_eq_zero (.inl hb), hy.exponent_eq_zero (.inl hb), add_zero]
      · have hxn := hx.exponent_mem n
        have hyn := hy.exponent_mem n
        have hlow : 0 ≤ ⌊e.value⌋ := Int.floor_nonneg.2 (by linarith)
        have hhigh : ⌊e.value⌋ < 2 := Int.floor_lt.2 (by push_cast; linarith)
        show ⌊e.value⌋.natAbs ≤ 0xFFFFFFFF
        omega
  rw [mul_eq_ofPowers]
  exact exists_ofPowers _ hcarried

end Surd

end Surds
