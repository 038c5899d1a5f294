import Mathlib.Algebra.BigOperators.Finsupp.Basic
import Mathlib.Data.Rat.Floor
import Mathlib.Tactic.FieldSimp
import Mathlib.Tactic.Linarith
import Surds.Surd.Exponents

/-!
# Carrying exponents

Over the rational numbers an exponent splits into what is carried into the coefficient and what
rests. One rule covers every base but zero : the power of exponent `Base.period b` is the number
`Base.turn b`, so the exponent `e` carries a whole power of it (`Base.carry`) and keeps less than
one period (`Base.rest`). An integer turns into itself with period one, the imaginary unit into
minus one with period two.

That numbers are carried at different moments makes no difference, since for any two exponents

* the sum carries what the first carries times what its rest and the second carry (`carry_add`);
* the sum rests as the rest of the first and the second do (`rest_rest_add`).

`prod_carry_add` is the first rule for whole formal products. They must be `Regular` : zero does not
occur, and the imaginary unit only with a whole exponent.
-/

namespace Surds

namespace Base

/-- The exponent at which a base turns into a number. -/
def period : Base → ℕ
  | imaginary => 2
  | int _ => 1

/-- The number that a base turns into. -/
def turn : Base → ℚ
  | imaginary => -1
  | int n => n

/-- The number that an exponent contributes to the coefficient. -/
def carry (b : Base) (e : ℚ) : ℚ :=
  b.turn ^ ⌊e / b.period⌋

/-- The part of an exponent that stays beside the coefficient. Nothing is left of the powers of
one. -/
def rest (b : Base) (e : ℚ) : ℚ :=
  if b = int 1 then 0 else b.period * Int.fract (e / b.period)

variable (b : Base) (e f : ℚ)

theorem period_ne_zero : ∀ b : Base, (b.period : ℚ) ≠ 0
  | imaginary => two_ne_zero
  | int _ => one_ne_zero

theorem turn_ne_zero : ∀ {b : Base}, b ≠ int 0 → b.turn ≠ 0
  | imaginary, _ => neg_ne_zero.2 one_ne_zero
  | int _, h => Int.cast_ne_zero.2 fun hn => h (by rw [hn])

@[simp] theorem carry_one : (int 1).carry e = 1 := by
  simp [carry, turn]

theorem carry_int (n : ℤ) : (int n).carry e = (n : ℚ) ^ ⌊e⌋ := by
  simp [carry, turn, period]

@[simp] theorem carry_zero : b.carry 0 = 1 := by
  simp [carry]

@[simp] theorem rest_zero : b.rest 0 = 0 := by
  simp [rest]

theorem rest_int {n : ℤ} (hn : n ≠ 1) : (int n).rest e = Int.fract e := by
  simp [rest, period, hn]

theorem carry_ne_zero {b : Base} (h : b ≠ int 0) (e : ℚ) : b.carry e ≠ 0 :=
  zpow_ne_zero _ (turn_ne_zero h)

/-- The rest differs from the exponent by the periods that are carried. -/
theorem rest_eq_sub (h : b ≠ int 1) : b.rest e = e - b.period * ⌊e / b.period⌋ := by
  have hp := b.period_ne_zero
  rw [rest, if_neg h, ← Int.self_sub_floor]
  field_simp

theorem add_div_period (h : b ≠ int 1) :
    (e + f) / b.period = ⌊e / b.period⌋ + (b.rest e + f) / b.period := by
  have hp := b.period_ne_zero
  rw [rest_eq_sub b e h]
  field_simp
  ring

/-- Adding to an exponent, its carry can be taken out first. -/
theorem carry_add {b : Base} (h : b ≠ int 0) (e f : ℚ) :
    b.carry (e + f) = b.carry e * b.carry (b.rest e + f) := by
  by_cases h1 : b = int 1
  · simp [h1]
  rw [carry, add_div_period b e f h1, Int.floor_intCast_add, zpow_add₀ (turn_ne_zero h), carry,
    carry]

/-- Adding to an exponent, its rest can be taken first. -/
theorem rest_rest_add : b.rest (b.rest e + f) = b.rest (e + f) := by
  by_cases h1 : b = int 1
  · simp [rest, h1]
  have hrest : ∀ x, b.rest x = b.period * Int.fract (x / b.period) := fun x => if_neg h1
  rw [hrest (b.rest e + f), hrest (e + f), add_div_period b e f h1, Int.fract_intCast_add]

theorem rest_add_rest : b.rest (b.rest e + b.rest f) = b.rest (e + f) := by
  rw [rest_rest_add, add_comm, rest_rest_add, add_comm]

@[simp] theorem rest_rest : b.rest (b.rest e) = b.rest e := by
  simpa using b.rest_rest_add e 0

/-- An exponent rests at zero when it is a multiple of the period. -/
theorem rest_mul_period (k : ℤ) : b.rest (k * b.period) = 0 := by
  have hp := b.period_ne_zero
  rw [rest, mul_div_cancel_right₀ _ hp, Int.fract_intCast, mul_zero, ite_self]

theorem carry_mul_period (k : ℤ) : b.carry (k * b.period) = b.turn ^ k := by
  rw [carry, mul_div_cancel_right₀ _ b.period_ne_zero, Int.floor_intCast]

/-- An exponent of which nothing rests goes a whole number of times round. -/
theorem eq_mul_period_of_rest (h : b ≠ int 1) (h0 : b.rest e = 0) :
    e = ⌊e / b.period⌋ * b.period := by
  rw [rest_eq_sub b e h] at h0
  rw [mul_comm]
  exact sub_eq_zero.1 h0

/-- Nothing rests of a multiple of such an exponent. -/
theorem rest_zsmul {e : ℚ} (h0 : b.rest e = 0) (k : ℤ) : b.rest (k • e) = 0 := by
  by_cases h1 : b = int 1
  · exact if_pos h1
  · rw [zsmul_eq_mul, eq_mul_period_of_rest b e h1 h0, ← mul_assoc, ← Int.cast_mul,
      rest_mul_period]

theorem carry_zsmul {e : ℚ} (h0 : b.rest e = 0) (k : ℤ) : b.carry (k • e) = b.carry e ^ k := by
  by_cases h1 : b = int 1
  · rw [h1, carry_one, carry_one, one_zpow]
  · rw [zsmul_eq_mul, eq_mul_period_of_rest b e h1 h0, ← mul_assoc, ← Int.cast_mul,
      carry_mul_period, carry_mul_period, mul_comm k, zpow_mul]

theorem floor_div_two (k : ℤ) : ⌊(k : ℚ) / (imaginary.period : ℕ)⌋ = k / 2 := by
  exact_mod_cast Rat.floor_intCast_div_natCast k 2

theorem carry_imaginary (k : ℤ) :
    imaginary.carry k = if k % 4 = 2 ∨ k % 4 = 3 then -1 else 1 := by
  rw [carry, floor_div_two, turn]
  split_ifs with h
  · exact (Int.odd_iff.2 (by omega)).neg_one_zpow
  · exact (Int.even_iff.2 (by omega)).neg_one_zpow

theorem rest_imaginary (k : ℤ) : imaginary.rest k = (k % 2 : ℤ) := by
  rw [rest_eq_sub _ _ (by simp), floor_div_two, Int.emod_def]
  simp [period]

/-- The exponents that a base can have in a regular product. -/
def Regular : Base → ℚ → Prop
  | imaginary, e => ∃ k : ℤ, e = k
  | int n, e => n = 0 → e = 0

variable {b e f}

theorem Regular.zero : ∀ b : Base, b.Regular 0
  | imaginary => ⟨0, Int.cast_zero.symm⟩
  | int _ => fun _ => rfl

theorem regular_imaginary (k : ℤ) : imaginary.Regular k :=
  ⟨k, rfl⟩

theorem regular_imaginary_one : imaginary.Regular 1 := by
  exact_mod_cast regular_imaginary 1

theorem regular_int {n : ℤ} (hn : n ≠ 0) (e : ℚ) : (int n).Regular e :=
  fun h0 => absurd h0 hn

theorem Regular.add : ∀ {b : Base} {e f : ℚ}, b.Regular e → b.Regular f → b.Regular (e + f)
  | imaginary, _, _, ⟨k, hk⟩, ⟨l, hl⟩ => ⟨k + l, by rw [hk, hl, Int.cast_add]⟩
  | int _, _, _, he, hf => fun hn => by rw [he hn, hf hn, add_zero]

theorem Regular.nsmul (he : b.Regular e) : ∀ n : ℕ, b.Regular (n • e)
  | 0 => by
    rw [zero_nsmul]
    exact Regular.zero b
  | n + 1 => by
    rw [succ_nsmul]
    exact (Regular.nsmul he n).add he

theorem Regular.zsmul : ∀ {b : Base} {e : ℚ}, b.Regular e → ∀ k : ℤ, b.Regular (k • e)
  | imaginary, _, ⟨l, hl⟩, k => ⟨k * l, by rw [hl, zsmul_eq_mul, Int.cast_mul]⟩
  | int _, _, he, k => fun hn => by rw [he hn, zsmul_zero]

end Base

/-! ## Formal products -/

/-- Zero does not occur in the product, and the imaginary unit only with a whole exponent. -/
def Regular (f : Base →₀ ℚ) : Prop :=
  ∀ b : Base, b.Regular (f b)

variable {f f' g g' : Base →₀ ℚ}

theorem Regular.add (hf : Regular f) (hg : Regular g) : Regular (f + g) :=
  fun b => (hf b).add (hg b)

theorem Regular.nsmul (hf : Regular f) (n : ℕ) : Regular (n • f) :=
  fun b => (hf b).nsmul n

theorem Regular.zsmul (hf : Regular f) (k : ℤ) : Regular (k • f) :=
  fun b => (hf b).zsmul k

theorem regular_zero : Regular 0 :=
  fun b => Base.Regular.zero b

theorem regular_single {b : Base} {e : ℚ} (h : b.Regular e) : Regular (Finsupp.single b e) := by
  intro c
  by_cases hc : c = b
  · rw [hc, Finsupp.single_eq_same]
    exact h
  · rw [Finsupp.single_eq_of_ne hc]
    exact Base.Regular.zero c

theorem prod_carry_eq {s : Finset Base} (h : f.support ⊆ s) :
    f.prod Base.carry = ∏ b ∈ s, b.carry (f b) :=
  Finsupp.prod_of_support_subset f h _ fun b _ => b.carry_zero

theorem prod_carry_ne_zero (hf : Regular f) : f.prod Base.carry ≠ 0 := by
  refine Finset.prod_ne_zero_iff.2 fun b hb => Base.carry_ne_zero ?_ _
  rintro rfl
  exact Finsupp.mem_support_iff.1 hb (hf (.int 0) rfl)

/-- What is carried out of a product can be carried before it is multiplied by another. -/
theorem prod_carry_add (hf : Regular f) (hg : Regular g) (h : ∀ b, f' b = b.rest (f b)) :
    (f + g).prod Base.carry = f.prod Base.carry * (f' + g).prod Base.carry := by
  have hsub : ∀ k : Base →₀ ℚ, k.support ⊆ f.support ∪ f'.support ∪ g.support →
      k.prod Base.carry = ∏ b ∈ f.support ∪ f'.support ∪ g.support, b.carry (k b) :=
    fun k hk => prod_carry_eq hk
  have hfg : (f + g).support ⊆ f.support ∪ f'.support ∪ g.support :=
    Finsupp.support_add.trans (Finset.union_subset_union_left Finset.subset_union_left)
  have hfg' : (f' + g).support ⊆ f.support ∪ f'.support ∪ g.support :=
    Finsupp.support_add.trans (Finset.union_subset_union_left Finset.subset_union_right)
  rw [hsub _ hfg, hsub _ hfg', hsub _ (Finset.subset_union_left.trans Finset.subset_union_left),
    ← Finset.prod_mul_distrib]
  refine Finset.prod_congr rfl fun b _ => ?_
  rw [Finsupp.add_apply, Finsupp.add_apply, h]
  by_cases hb : b = .int 0
  · have hf0 : f b = 0 := by rw [hb]; exact hf (.int 0) rfl
    have hg0 : g b = 0 := by rw [hb]; exact hg (.int 0) rfl
    simp [hf0, hg0]
  · exact Base.carry_add hb _ _

theorem regular_of_rest (hf : Regular f) (h : ∀ b, f' b = b.rest (f b)) : Regular f' := by
  intro b
  rw [h]
  cases b with
  | imaginary =>
    obtain ⟨k, hk⟩ := hf .imaginary
    refine ⟨k - 2 * ⌊(k : ℚ) / 2⌋, ?_⟩
    rw [Base.rest_eq_sub _ _ (by simp), hk]
    simp [Base.period]
  | int n =>
    intro hn
    rw [hf (.int n) hn, Base.rest_zero]

/-- The rests of a product carry nothing. -/
theorem prod_carry_of_rest (hf : Regular f) (h : ∀ b, f' b = b.rest (f b)) :
    f'.prod Base.carry = 1 := by
  have hadd := prod_carry_add hf regular_zero h
  rw [add_zero, add_zero] at hadd
  exact (mul_eq_left₀ (prod_carry_ne_zero hf)).1 hadd.symm

/-- What is carried out of two products can be carried before they are multiplied. -/
theorem prod_carry_add_add (hf : Regular f) (hg : Regular g) (hf' : ∀ b, f' b = b.rest (f b))
    (hg' : ∀ b, g' b = b.rest (g b)) : (f + g).prod Base.carry =
      f.prod Base.carry * g.prod Base.carry * (f' + g').prod Base.carry := by
  rw [prod_carry_add hf hg hf', add_comm f' g, prod_carry_add hg (regular_of_rest hf hf') hg',
    add_comm g' f', mul_assoc]

end Surds
