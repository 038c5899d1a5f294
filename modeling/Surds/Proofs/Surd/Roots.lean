import Mathlib.Data.Finsupp.SMulWithZero
import Surds.Proofs.Surd.Form

/-!
# Roots among formal products

A formal product of coefficient `c` and exponents `f` is a `q`-th root of the number `v` when
nothing rests of the exponents `q • f` and `c ^ q` times what they carry is `v` (`IsRoot`). Roots of
one degree can be multiplied (`IsRoot.mul`), and every root is made of two kinds : numbers
(`isRoot_const`) and single powers with an exponent that `q` takes to a multiple of the period
(`isRoot_single`).

`RootOf q v x` says it of a surd : its form is a `q`-th root of `v`. Then `q` copies of it multiply
to the scalar `v` (`RootOf.copies`).
-/

namespace Surds

section

variable {q : ℕ} {v w c d : ℚ} {f g : Base →₀ ℚ}

/-- Nothing is carried twice from exponents of which nothing rests. -/
theorem prod_carry_add_of_rest (hf : Regular f) (hg : Regular g)
    (hf0 : ∀ b : Base, b.rest (f b) = 0) (hg0 : ∀ b : Base, b.rest (g b) = 0) :
    (f + g).prod Base.carry = f.prod Base.carry * g.prod Base.carry := by
  have hf' : ∀ b : Base, (0 : Base →₀ ℚ) b = b.rest (f b) := fun b => (hf0 b).symm
  have hg' : ∀ b : Base, (0 : Base →₀ ℚ) b = b.rest (g b) := fun b => (hg0 b).symm
  rw [prod_carry_add_add hf hg hf' hg', add_zero, Finsupp.prod_zero_index, mul_one]

/-- To the power `q`, the coefficient `c` and the exponents `f` make the number `v`. -/
structure IsRoot (q : ℕ) (v c : ℚ) (f : Base →₀ ℚ) : Prop where
  regular : Regular f
  rest : ∀ b : Base, b.rest ((q • f) b) = 0
  value : c ^ q * (q • f).prod Base.carry = v

theorem IsRoot.mul (hf : IsRoot q v c f) (hg : IsRoot q w d g) :
    IsRoot q (v * w) (c * d) (f + g) where
  regular := hf.regular.add hg.regular
  rest := fun b => by
    rw [nsmul_add, Finsupp.add_apply, ← Base.rest_add_rest, hf.rest, hg.rest, add_zero,
      Base.rest_zero]
  value := by
    rw [nsmul_add, prod_carry_add_of_rest (hf.regular.nsmul q) (hg.regular.nsmul q) hf.rest hg.rest,
      ← hf.value, ← hg.value]
    ring

theorem isRoot_const (q : ℕ) (c : ℚ) : IsRoot q (c ^ q) c 0 where
  regular := regular_zero
  rest := fun b => by rw [nsmul_zero, Finsupp.zero_apply, Base.rest_zero]
  value := by rw [nsmul_zero, Finsupp.prod_zero_index, mul_one]

/-- A power is a root when its exponent goes `k` times round in `q` copies. -/
theorem isRoot_single {b : Base} {e : ℚ} {k : ℤ} (hreg : b.Regular e) (h : q * e = k * b.period) :
    IsRoot q (b.turn ^ k) 1 (Finsupp.single b e) where
  regular := regular_single hreg
  rest := fun a => by
    rw [Finsupp.smul_single, nsmul_eq_mul, h]
    by_cases ha : a = b
    · rw [ha, Finsupp.single_eq_same, Base.rest_mul_period]
    · rw [Finsupp.single_eq_of_ne ha, Base.rest_zero]
  value := by
    rw [Finsupp.smul_single, nsmul_eq_mul, h, Finsupp.prod_single_index b.carry_zero,
      Base.carry_mul_period, one_pow, one_mul]

/-- The product of exponents of which nothing rests can be taken before they are multiplied. -/
theorem prod_carry_zsmul (hf0 : ∀ b : Base, b.rest (f b) = 0) (k : ℤ) :
    (k • f).prod Base.carry = f.prod Base.carry ^ k := by
  rw [prod_carry_eq Finsupp.support_smul, prod_carry_eq (Finset.Subset.refl f.support),
    ← Finset.prod_zpow]
  exact Finset.prod_congr rfl fun b _ => b.carry_zsmul (hf0 b) k

/-- A whole power of a root is a root of the power. -/
theorem IsRoot.zpow (hf : IsRoot q v c f) (k : ℤ) : IsRoot q (v ^ k) (c ^ k) (k • f) where
  regular := hf.regular.zsmul k
  rest := fun b => by
    rw [← natCast_zsmul, zsmul_comm, natCast_zsmul]
    exact b.rest_zsmul (hf.rest b) k
  value := by
    rw [← natCast_zsmul, zsmul_comm, natCast_zsmul, prod_carry_zsmul hf.rest, ← hf.value, mul_zpow,
      ← zpow_natCast, zpow_comm, zpow_natCast]

theorem IsRoot.coef_ne_zero (hf : IsRoot q v c f) (hq : q ≠ 0) (hv : v ≠ 0) : c ≠ 0 := by
  rintro rfl
  have hvalue := hf.value
  rw [zero_pow hq, zero_mul] at hvalue
  exact hv hvalue.symm

end

namespace Surd

variable {q : ℕ} {v c : ℚ} {f : Base →₀ ℚ} {x : Surd}

/-- The number is the form of the root to the degree. -/
theorem formOf_pow_of_isRoot (h : IsRoot q v c f) : FormOf (c ^ q) (q • f) (scalar (.ofRat v)) where
  canonical := Scalar.canonical_ofRat v
  regular := h.regular.nsmul q
  coef := by rw [h.value]; exact Scalar.value_ofRat v
  powers := fun _ b => (h.rest b).symm

/-- The surd `x` is a `q`-th root of the number `v`. -/
def RootOf (q : ℕ) (v : ℚ) (x : Surd) : Prop :=
  ∃ c f, FormOf c f x ∧ IsRoot q v c f

theorem RootOf.canonical : x.RootOf q v → x.Canonical
  | ⟨_, _, hform, _⟩ => hform.canonical

/-- As many copies of a root as its degree says multiply to the number. -/
theorem RootOf.copies (h : x.RootOf q v) : x.copies q = .ok (scalar (.ofRat v)) := by
  obtain ⟨c, f, hform, hroot⟩ := h
  obtain ⟨y, hy, -⟩ := exists_copies hform.canonical q
  rw [hy, (hform.copies hy).unique (formOf_pow_of_isRoot hroot)]

end Surd

end Surds
