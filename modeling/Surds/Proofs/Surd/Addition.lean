import Surds.Proofs.Surd.Form

/-!
# Adding exponents

Two products of powers can be folded and then multiplied, or their exponents can be added and the
sum folded : the result is the same surd (`ofPowers_mul_ofPowers`). Without a power of zero this is
the product of two forms. A power of zero with a positive exponent makes its product zero, and the
sum of two exponents of zero is positive as soon as one of them is, since a negative one is refused.

The imaginary unit must have whole exponents in both products. A fractional one is left as it is,
however large, while the product takes half turns out of a sum that becomes whole.
-/

namespace Surds

namespace Exponents

/-- The imaginary unit, if it occurs, has a whole exponent. -/
def WholeImaginary (p : Exponents) : Prop :=
  ∀ e ∈ p.get? .imaginary, e.den = 1

instance (p : Exponents) : Decidable p.WholeImaginary :=
  inferInstanceAs (Decidable (∀ e ∈ p.get? .imaginary, e.den = 1))

/-- A product in which zero does not occur and the imaginary unit has a whole exponent is
regular. -/
theorem WholeImaginary.regular {p : Exponents} (h : p.WholeImaginary)
    (h0 : p.toFinsupp (.int 0) = 0) : Regular p.toFinsupp := by
  intro b
  match b with
  | .imaginary =>
    cases hget : p.get? .imaginary with
    | none =>
      rw [toFinsupp_of_get?_none hget]
      exact Base.Regular.zero _
    | some e =>
      refine ⟨e.num, ?_⟩
      rw [toFinsupp_of_get? hget, Scalar.value, h e hget, Rat.mkRat_one]
  | .int n =>
    intro hn
    rw [hn, h0]

end Exponents

namespace Surd

variable {a c : Scalar} {p q s : Exponents} {x y z : Surd}

/-- A product with a power of zero is zero. -/
theorem eq_zero_of_ofPowers (ha : a.Canonical) (hp : p.Canonical)
    (h0 : p.toFinsupp (.int 0) ≠ 0) (h : ofPowers a p = .ok x) : x = scalar 0 :=
  (foldOf_ofPowers ha hp h).eq_zero_iff.2 (.inr (prod_contribution_eq_zero h0))

/-- The product of two folded products is the folded product with the exponents added. -/
theorem ofPowers_mul_ofPowers (ha : a.Canonical) (hc : c.Canonical) (hp : p.Canonical)
    (hq : q.Canonical) (hs : s.Canonical) (hpi : p.WholeImaginary) (hqi : q.WholeImaginary)
    (hsum : s.toFinsupp = p.toFinsupp + q.toFinsupp) (hx : ofPowers a p = .ok x)
    (hy : ofPowers c q = .ok y) (hz : ofPowers (a * c) s = .ok z) : x.mul y = .ok z := by
  have hxcan := canonical_ofPowers ha hp hx
  have hycan := canonical_ofPowers hc hq hy
  have hac := Scalar.canonical_mul ha hc
  obtain ⟨w, hw⟩ := exists_mul hxcan hycan
  suffices heq : w = z by rw [hw, heq]
  by_cases h0 : p.toFinsupp (.int 0) = 0 ∧ q.toFinsupp (.int 0) = 0
  · obtain ⟨hp0, hq0⟩ := h0
    have hreg := hpi.regular hp0
    have hreg' := hqi.regular hq0
    have hform := (foldOf_ofPowers hac hs hz).formOf (hsum ▸ hreg.add hreg')
    rw [Scalar.value_mul ha hc, hsum] at hform
    exact ((formOf_ofPowers ha hp hreg hx).mul (formOf_ofPowers hc hq hreg' hy) hw).unique hform
  · have hp0 := nonneg_of_ofPowers hx
    have hq0 := nonneg_of_ofPowers hy
    have hs0 : s.toFinsupp (.int 0) ≠ 0 := by
      intro hs0
      rw [hsum, Finsupp.add_apply] at hs0
      exact h0 ⟨by linarith, by linarith⟩
    have hzero : x = scalar 0 ∨ y = scalar 0 := by
      rcases not_and_or.1 h0 with hpne | hqne
      · exact .inl (eq_zero_of_ofPowers ha hp hpne hx)
      · exact .inr (eq_zero_of_ofPowers hc hq hqne hy)
    rw [(eq_zero_iff_of_mul hxcan hycan hw).2 hzero, eq_zero_of_ofPowers hac hs hs0 hz]

/-- Exponents of the imaginary unit that go more than once round, exponents of a negative base that
add up to a whole number, and exponents that cancel. -/
theorem ofPowers_mul_ofPowers_of_wrapping :
    let p := Exponents.ofList
      [(.imaginary, .whole 7), (.int (-2), .frac ⟨5, 3⟩), (.int 6, .frac ⟨-1, 2⟩)]
    let q := Exponents.ofList
      [(.imaginary, .whole (-4)), (.int (-2), .frac ⟨4, 3⟩), (.int 6, .frac ⟨1, 2⟩)]
    ∃ x y, ofPowers (.frac ⟨1, 2⟩) p = .ok x ∧ ofPowers (.whole (-3)) q = .ok y ∧
      ofPowers (.frac ⟨1, 2⟩ * .whole (-3)) (p + q) =
        .ok (product (.whole (-12)) (.single .imaginary 1)) ∧
      x.mul y = .ok (product (.whole (-12)) (.single .imaginary 1)) := by
  intro p q
  have hp : p.Canonical := by decide
  have hq : q.Canonical := by decide
  refine ⟨_, _, rfl, rfl, rfl, ?_⟩
  exact ofPowers_mul_ofPowers (a := .frac ⟨1, 2⟩) (c := .whole (-3)) (by decide) (by decide) hp hq
    (hp.add hq) (by decide) (by decide) (Exponents.toFinsupp_add hp hq) rfl rfl rfl

end Surd

end Surds
