import Surds.Proofs.Surd.Fold

/-!
# Forms of formal products

A regular formal product, a rational coefficient `c` with rational exponents `f`, has one canonical
form : the coefficient times all that the exponents carry, with what rests of them beside it
(`FormOf c f x`, `FormOf.unique`). Operations on surds are operations on the formal products :

* `ofPowers` makes the form of its arguments (`formOf_ofPowers`);
* the product of two forms is the form of the product, in which exponents add up (`FormOf.mul`);
* the product of `n` copies is the form of the `n`-th power (`FormOf.copies`).

So it does not matter when an exponent is carried.
-/

namespace Surds

namespace Surd

variable {c d : ℚ} {f g : Base →₀ ℚ} {a : Scalar} {p : Exponents} {x y z : Surd}

/-- The surd `x` is the canonical form of `c` times the bases to the exponents `f`. -/
structure FormOf (c : ℚ) (f : Base →₀ ℚ) (x : Surd) : Prop where
  canonical : x.Canonical
  regular : Regular f
  coef : x.coef.value = c * f.prod Base.carry
  /-- Beside a coefficient of zero nothing is kept. -/
  powers : c ≠ 0 → ∀ b, x.powers.toFinsupp b = b.rest (f b)

theorem prod_contribution_of_regular (hf : Regular f) :
    f.prod Base.contribution = f.prod Base.carry :=
  Finsupp.prod_congr fun b _ => Base.contribution_of_regular (hf b)

/-- Folding a regular product makes its form. -/
theorem FoldOf.formOf (h : FoldOf c f x) (hf : Regular f) : FormOf c f x := by
  have hprod := prod_contribution_of_regular hf
  refine ⟨h.canonical, hf, hprod ▸ h.coef, fun hc b => ?_⟩
  have h0 : x ≠ scalar 0 := by
    rw [ne_eq, h.eq_zero_iff, hprod, or_iff_left (prod_carry_ne_zero hf)]
    exact hc
  rw [h.powers h0, Base.remainder_of_regular (hf b)]

theorem formOf_ofPowers (ha : a.Canonical) (hp : p.Canonical) (hreg : Regular p.toFinsupp)
    (h : ofPowers a p = .ok x) : FormOf a.value p.toFinsupp x :=
  (foldOf_ofPowers ha hp h).formOf hreg

namespace FormOf

theorem coef_eq_zero_iff (h : FormOf c f x) : x.coef.value = 0 ↔ c = 0 := by
  rw [h.coef, mul_eq_zero, or_iff_left (prod_carry_ne_zero h.regular)]

theorem eq_zero (h : FormOf 0 f x) : x = scalar 0 :=
  h.canonical.eq_zero (h.canonical.coef_canonical.value_eq_zero_iff.1 (h.coef_eq_zero_iff.2 rfl))

/-- The powers of a form are regular. -/
theorem regular_powers (h : FormOf c f x) : Regular x.powers.toFinsupp := by
  by_cases hc : c = 0
  · subst hc
    rw [h.eq_zero]
    exact regular_zero
  · exact regular_of_rest h.regular (h.powers hc)

/-- The form of a product is the product folded. -/
theorem foldOf (h : FormOf c f x) : FoldOf c f x := by
  refine ⟨h.canonical, prod_contribution_of_regular h.regular ▸ h.coef, fun h0 b => ?_⟩
  have hc : c ≠ 0 := by
    rintro rfl
    exact h0 h.eq_zero
  rw [h.powers hc, Base.remainder_of_regular (h.regular b)]

/-- A formal product has one form. -/
theorem unique (hx : FormOf c f x) (hy : FormOf c f y) : x = y :=
  hx.foldOf.unique hy.foldOf

/-- A form in which the exponents are already carried. -/
theorem of_rest (hf : Regular f) (hrest : ∀ b, g b = b.rest (f b))
    (h : FormOf (c * f.prod Base.carry) g x) : FormOf c f x := by
  refine ⟨h.canonical, hf, ?_, fun hc b => ?_⟩
  · rw [h.coef, prod_carry_of_rest hf hrest, mul_one]
  · rw [h.powers (mul_ne_zero hc (prod_carry_ne_zero hf)), hrest, Base.rest_rest]

/-- The product of two forms is the form in which the exponents add up. -/
theorem mul (hx : FormOf c f x) (hy : FormOf d g y) (h : x.mul y = .ok z) :
    FormOf (c * d) (f + g) z := by
  have hz := (foldOf_mul hx.canonical hy.canonical h).formOf
    (hx.regular_powers.add hy.regular_powers)
  refine ⟨hz.canonical, hx.regular.add hy.regular, ?_, fun hcd b => ?_⟩
  · by_cases hcd : c * d = 0
    · rw [hcd, zero_mul, hz.coef_eq_zero_iff, mul_eq_zero, hx.coef_eq_zero_iff,
        hy.coef_eq_zero_iff, ← mul_eq_zero]
      exact hcd
    · rw [hz.coef, hx.coef, hy.coef, prod_carry_add_add hx.regular hy.regular
        (hx.powers (left_ne_zero_of_mul hcd)) (hy.powers (right_ne_zero_of_mul hcd))]
      ring
  · have hne : x.coef.value * y.coef.value ≠ 0 := by
      rw [ne_eq, mul_eq_zero, hx.coef_eq_zero_iff, hy.coef_eq_zero_iff, ← mul_eq_zero]
      exact hcd
    rw [hz.powers hne, Finsupp.add_apply, hx.powers (left_ne_zero_of_mul hcd),
      hy.powers (right_ne_zero_of_mul hcd), Base.rest_add_rest, Finsupp.add_apply]

end FormOf

theorem formOf_scalar (ha : a.Canonical) : FormOf a.value 0 (scalar a) where
  canonical := ha
  regular := regular_zero
  coef := by rw [Finsupp.prod_zero_index, mul_one]; rfl
  powers := fun _ b => by rw [Finsupp.zero_apply, Base.rest_zero]; rfl

theorem formOf_ofRat (c : ℚ) : FormOf c 0 (scalar (.ofRat c)) := by
  have hform := formOf_scalar (Scalar.canonical_ofRat c)
  rwa [Scalar.value_ofRat] at hform

theorem formOf_imaginaryPower {k : ℤ} (h : imaginaryPower k = .ok x) :
    FormOf 1 (Finsupp.single .imaginary (k : ℚ)) x := by
  have hform := formOf_ofPowers (p := .single .imaginary (.whole k)) Scalar.canonical_one
    (Exponents.canonical_single (Scalar.canonical_whole k))
    (by rw [Exponents.toFinsupp_single]; exact regular_single ⟨k, Scalar.value_whole k⟩) h
  rwa [Exponents.toFinsupp_single, Scalar.value_one, Scalar.value_whole] at hform

/-! ## Copies -/

/-- The product of `n` copies of a surd, multiplied to one from the left to the right. -/
def copies (x : Surd) : ℕ → Except Failure Surd
  | 0 => .ok (scalar 1)
  | n + 1 => do (← copies x n).mul x

/-- Multiplying copies of a canonical surd never fails. -/
theorem exists_copies (hx : x.Canonical) : ∀ n, ∃ y, x.copies n = .ok y ∧ y.Canonical
  | 0 => ⟨_, rfl, trivial⟩
  | n + 1 => by
    obtain ⟨y, hy, hcan⟩ := exists_copies hx n
    obtain ⟨z, hz⟩ := exists_mul hcan hx
    exact ⟨z, bind_eq_ok_iff.2 ⟨y, hy, hz⟩, canonical_mul hcan hx hz⟩

/-- Copies of a form make the form of a power. -/
theorem FormOf.copies (hx : FormOf c f x) :
    ∀ {n : ℕ} {y : Surd}, x.copies n = .ok y → FormOf (c ^ n) (n • f) y
  | 0, y, h => by
    rw [← Except.ok.inj h, pow_zero, zero_nsmul, ← Scalar.value_one]
    exact formOf_scalar Scalar.canonical_one
  | n + 1, y, h => by
    obtain ⟨z, hz, hmul⟩ := bind_eq_ok_iff.1 h
    rw [pow_succ, succ_nsmul]
    exact (FormOf.copies hx hz).mul hx hmul

end Surd

end Surds
