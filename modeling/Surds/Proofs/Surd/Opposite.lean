import Surds.Proofs.Surd.Parts

/-!
# Opposite surds

The opposite of a surd is built without folding anything. A scalar or a product changes the sign of
its coefficient, and only then can a product become a simpler surd; the imaginary unit and a root
become products with the coefficient minus one (`negByKind`). Multiplying by minus one folds all
the powers again, and has the same result.

Folding with the opposite coefficient makes the opposite surd (`FoldOf.neg`), and a canonical surd
is folded from its own parts (`Canonical.foldOf`). Folding has one result, so every law of signs
follows from the coefficients alone, whatever the powers carry (`signLaws_of_reachable`).
-/

namespace Surds

namespace Surd

variable {a : Scalar} {c : ℚ} {f : Base →₀ ℚ} {x y z : Surd}

/-- The opposite surd, as each kind of surds builds it. -/
def negByKind : Surd → Surd
  | scalar a => scalar (-a)
  | product c p => collapse (-c) p
  | imaginary => product (-1) (.single .imaginary 1)
  | root n r => product (-1) (.single (.int n) (.frac r))

theorem neg_eq_negByKind : ∀ x : Surd, -x = x.negByKind
  | scalar _ => rfl
  | imaginary => rfl
  | root _ _ => rfl
  | product _ _ => rfl

/-! ## Folding -/

/-- A canonical surd is folded from its own coefficient and powers. -/
theorem Canonical.foldOf (hx : x.Canonical) : FoldOf x.coef.value x.powers.toFinsupp x :=
  foldOf_ofPowers hx.coef_canonical hx.powers_canonical hx.ofPowers_eq

/-- Folding with the opposite coefficient makes the opposite surd. -/
theorem FoldOf.neg (h : FoldOf c f x) : FoldOf (-c) f (-x) where
  canonical := canonical_neg h.canonical
  coef := by rw [coef_neg, Scalar.value_neg, h.coef, neg_mul]
  powers := fun hne b => by
    rw [powers_neg]
    refine h.powers (fun h0 => hne ?_) b
    rw [h0]
    rfl

/-- A scalar factor multiplies the coefficient and leaves the powers to be folded as they are. -/
theorem foldOf_scalar_mul (ha : a.Canonical) (hx : x.Canonical) (h : (scalar a).mul x = .ok z) :
    FoldOf (a.value * x.coef.value) x.powers.toFinsupp z := by
  have hfold := foldOf_mul (x := scalar a) ha hx h
  rwa [powers, Exponents.toFinsupp_empty, zero_add] at hfold

/-! ## Signs -/

theorem Canonical.scalar_one_mul (hx : x.Canonical) : (scalar 1).mul x = .ok x := by
  obtain ⟨z, hz⟩ := exists_mul (x := scalar 1) Scalar.canonical_one hx
  have hfold := foldOf_scalar_mul Scalar.canonical_one hx hz
  rw [Scalar.value_one, one_mul] at hfold
  rw [hz, hfold.unique hx.foldOf]

/-- The opposite of a canonical surd is its product with minus one. -/
theorem Canonical.scalar_neg_one_mul (hx : x.Canonical) : (scalar (-1)).mul x = .ok (-x) := by
  have hneg : (-1 : Scalar).Canonical := Scalar.canonical_neg Scalar.canonical_one
  obtain ⟨z, hz⟩ := exists_mul (show (scalar (-1)).Canonical from hneg) hx
  have hfold := foldOf_scalar_mul hneg hx hz
  rw [Scalar.value_neg, Scalar.value_one, neg_one_mul] at hfold
  rw [hz, hfold.unique hx.foldOf.neg]

theorem Canonical.neg_neg_eq (hx : x.Canonical) : - -x = x := by
  have hfold := hx.foldOf.neg.neg
  rw [neg_neg] at hfold
  exact hfold.unique hx.foldOf

/-- The opposite of a product is the product with the opposite of a factor. -/
theorem neg_mul_of_mul (hx : x.Canonical) (hy : y.Canonical) (h : x.mul y = .ok z) :
    (-x).mul y = .ok (-z) := by
  obtain ⟨w, hw⟩ := exists_mul (canonical_neg hx) hy
  have hfold := foldOf_mul (canonical_neg hx) hy hw
  rw [coef_neg, powers_neg, Scalar.value_neg, neg_mul] at hfold
  rw [hw, hfold.unique (foldOf_mul hx hy h).neg]

/-- How the surds `x` and `y` multiply, and what becomes of the sign of `x`. -/
structure SignLaws (x y : Surd) : Prop where
  /-- Multiplying never fails, -/
  mul_ok : ∃ z, x.mul y = .ok z
  /-- in either order, -/
  mul_comm : x.mul y = y.mul x
  /-- and the product takes the sign from its factor. -/
  neg_mul : ∀ z, x.mul y = .ok z → (-x).mul y = .ok (-z)
  one_mul : (scalar 1).mul x = .ok x
  /-- The opposite is the product with minus one, -/
  neg_one_mul : (scalar (-1)).mul x = .ok (-x)
  /-- and each kind of surds builds it without multiplying. -/
  neg_eq : -x = x.negByKind
  neg_neg : - -x = x

/-- Any two reachable surds can be multiplied in either order, and the opposite of a surd is its
product with minus one. -/
theorem signLaws_of_reachable (hx : x.Reachable) (hy : y.Reachable) : SignLaws x y where
  mul_ok := exists_mul hx.canonical hy.canonical
  mul_comm := mul_eq_mul_swap hx.canonical hy.canonical
  neg_mul := fun _ hz => neg_mul_of_mul hx.canonical hy.canonical hz
  one_mul := hx.canonical.scalar_one_mul
  neg_one_mul := hx.canonical.scalar_neg_one_mul
  neg_eq := neg_eq_negByKind x
  neg_neg := hx.canonical.neg_neg_eq

/-- Roots of minus two, and fractional powers of the imaginary unit, that cancel to a number. Both
of them take part in its sign. -/
theorem signLaws_of_cancelling_powers :
    let x := product 1 ((Exponents.single .imaginary (.frac ⟨3, 2⟩)).insert (.int (-2))
      (.frac ⟨2, 3⟩))
    let y := product (.whole 3) ((Exponents.single .imaginary (.frac ⟨1, 2⟩)).insert (.int (-2))
      (.frac ⟨1, 3⟩))
    x.Reachable ∧ y.Reachable ∧ x.mul y = .ok (scalar (.whole 6)) ∧
      (-x).mul y = .ok (scalar (.whole (-6))) ∧ SignLaws x y := by
  intro x y
  have hx : x.Reachable := ⟨[.ofPowers 1 x.powers], by decide, by decide⟩
  have hy : y.Reachable := ⟨[.ofPowers (.whole 3) y.powers], by decide, by decide⟩
  have hlaws := signLaws_of_reachable hx hy
  have hmul : x.mul y = .ok (scalar (.whole 6)) := by decide
  exact ⟨hx, hy, hmul, hlaws.neg_mul _ hmul, hlaws⟩

end Surd

end Surds
