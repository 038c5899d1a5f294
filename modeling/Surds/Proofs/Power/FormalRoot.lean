import Surds.Proofs.Root
import Surds.Proofs.Surd.Roots

/-!
# Formal roots

The formal `q`-th root of an integer is a formal product, a coefficient and exponents of the bases
beside it (`FormalRoot.ofInt`). It has one of four shapes (`ofInt_cases`) :

* an exact root with the sign of the integer, if there is one;
* an exact root of the magnitude times the imaginary unit, for a negative integer and an even
  degree;
* the imaginary unit times a square root of the magnitude, where that is not exact;
* the integer to the exponent `1 / q`, in all other cases.

An integer that occurs in a formal root is a `Radical` and has the exponent `1 / q` (`ofInt_int`),
and the imaginary unit has the exponent one (`ofInt_imaginary`). The formal root is a root of the
integer, unless the imaginary unit occurs in a degree that four divides (`isRoot_ofInt`,
`isRoot_ofInt_of_four_dvd`).
-/

namespace Surds

/-- A rational coefficient and rational exponents of the bases beside it. -/
structure FormalRoot where
  coef : ℚ
  exponents : Base →₀ ℚ

open Surd

variable {n m : ℤ} {q : ℕ}

/-- An integer without an exact root is neither zero nor one. -/
theorem ne_zero_of_no_root (hq : 0 < q) (h : ∀ r : ℕ, r ^ q ≠ n.natAbs) : n ≠ 0 := by
  rintro rfl
  exact h 0 (zero_pow hq.ne')

theorem ne_one_of_no_root (h : ∀ r : ℕ, r ^ q ≠ n.natAbs) : n ≠ 1 := by
  rintro rfl
  exact h 1 (one_pow q)

namespace FormalRoot

/-- The formal `q`-th root of an integer. -/
noncomputable def ofInt (n : ℤ) (q : ℕ) : FormalRoot :=
  match exactRoot? q n.natAbs with
  | some r =>
    if n < 0 ∧ q % 2 = 0 then ⟨r, .single .imaginary 1⟩ else ⟨(n.sign * r : ℤ), 0⟩
  | none =>
    if n < 0 ∧ q = 2 then ⟨1, .single .imaginary 1 + .single (.int n.natAbs) (1 / 2)⟩
    else ⟨1, .single (.int n) (1 / q)⟩

theorem ofInt_of_root (hq : 0 < q) {t : ℤ} (ht : t ^ q = n) (hsign : q % 2 = 0 → 0 ≤ t) :
    ofInt n q = ⟨t, 0⟩ := by
  have hroot : exactRoot? q n.natAbs = some t.natAbs := by
    rw [exactRoot?_eq_some_iff hq, ← ht, Int.natAbs_pow]
  simp only [ofInt, hroot, if_neg (not_neg_of_pow ht), sign_mul_natAbs_of_pow hq.ne' ht hsign]

theorem ofInt_one (hq : 0 < q) : ofInt 1 q = ⟨1, 0⟩ := by
  rw [ofInt_of_root hq (one_pow q) fun _ => zero_le_one, Int.cast_one]

theorem ofInt_of_imaginary (hq : 0 < q) (hn : n < 0) (heven : q % 2 = 0) {r : ℕ}
    (hr : r ^ q = n.natAbs) : ofInt n q = ⟨r, .single .imaginary 1⟩ := by
  have hroot : exactRoot? q n.natAbs = some r := (exactRoot?_eq_some_iff hq).2 hr
  simp only [ofInt, hroot, if_pos (And.intro hn heven)]

theorem ofInt_of_square (hn : n < 0) (hq : q = 2) (hnone : ∀ r : ℕ, r ^ q ≠ n.natAbs) :
    ofInt n q = ⟨1, .single .imaginary 1 + .single (.int n.natAbs) (1 / 2)⟩ := by
  have hroot : exactRoot? q n.natAbs = none := (exactRoot?_eq_none_iff (by omega)).2 hnone
  simp only [ofInt, hroot, if_pos (And.intro hn hq)]

theorem ofInt_of_radical (hq : 0 < q) (hdegree : n < 0 → q ≠ 2)
    (hnone : ∀ r : ℕ, r ^ q ≠ n.natAbs) : ofInt n q = ⟨1, .single (.int n) (1 / q)⟩ := by
  have hroot : exactRoot? q n.natAbs = none := (exactRoot?_eq_none_iff hq).2 hnone
  simp only [ofInt, hroot, if_neg (not_and.2 hdegree)]

/-- The formal root of an integer has one of four shapes. -/
theorem ofInt_cases {motive : FormalRoot → Prop} (hq : 0 < q)
    (exact : ∀ t : ℤ, t ^ q = n → (q % 2 = 0 → 0 ≤ t) → motive ⟨t, 0⟩)
    (imaginary : ∀ r : ℕ, n < 0 → q % 2 = 0 → r ^ q = n.natAbs →
      motive ⟨r, .single .imaginary 1⟩)
    (square : n < 0 → q = 2 → (∀ r : ℕ, r ^ q ≠ n.natAbs) →
      motive ⟨1, .single .imaginary 1 + .single (.int n.natAbs) (1 / 2)⟩)
    (radical : (n < 0 → q ≠ 2) → (∀ r : ℕ, r ^ q ≠ n.natAbs) →
      motive ⟨1, .single (.int n) (1 / q)⟩) : motive (ofInt n q) := by
  by_cases hroot : ∃ r : ℕ, r ^ q = n.natAbs
  · obtain ⟨r, hr⟩ := hroot
    by_cases himag : n < 0 ∧ q % 2 = 0
    · rw [ofInt_of_imaginary hq himag.1 himag.2 hr]
      exact imaginary r himag.1 himag.2 hr
    · obtain ⟨hpow, hsign⟩ := sign_mul_pow hq.ne' hr himag
      rw [ofInt_of_root hq hpow hsign]
      exact exact _ hpow hsign
  · have hnone : ∀ r : ℕ, r ^ q ≠ n.natAbs := not_exists.1 hroot
    by_cases hsquare : n < 0 ∧ q = 2
    · rw [ofInt_of_square hsquare.1 hsquare.2 hnone]
      exact square hsquare.1 hsquare.2 hnone
    · rw [ofInt_of_radical hq (not_and.1 hsquare) hnone]
      exact radical (not_and.1 hsquare) hnone

end FormalRoot

/-! ## What occurs in the formal root -/

/-- The integer `m` stands under the radical of the root of degree `q` of `n`. -/
structure Radical (n : ℤ) (q : ℕ) (m : ℤ) : Prop where
  base : m = n.natAbs ∨ m = n
  no_root : ∀ r : ℕ, r ^ q ≠ m.natAbs
  /-- No square root has a negative integer under it. -/
  negative : m < 0 → n < 0 ∧ q ≠ 2

theorem Radical.natAbs_eq (h : Radical n q m) : m.natAbs = n.natAbs := by
  rcases h.base with rfl | rfl
  · exact Int.natAbs_natCast _
  · rfl

theorem Radical.ne_one (h : Radical n q m) : m ≠ 1 :=
  ne_one_of_no_root h.no_root

theorem Radical.pos (h : Radical n q m) (hq : 0 < q) (hn : 0 < n) : 0 < m := by
  have hnonneg : 0 ≤ m := not_lt.1 fun hneg => (h.negative hneg).1.not_gt hn
  exact hnonneg.lt_of_ne (ne_zero_of_no_root hq h.no_root).symm

/-- The sign of `n` is moved into the imaginary unit. -/
def ImaginarySign (n : ℤ) (q : ℕ) : Prop :=
  n < 0 ∧ q % 2 = 0 ∧ (q = 2 ∨ ∃ r : ℕ, r ^ q = n.natAbs)

theorem single_imaginary_int (r : ℚ) (m : ℤ) :
    Finsupp.single Base.imaginary r (.int m) = 0 :=
  Finsupp.single_eq_of_ne nofun

theorem single_int_imaginary (m : ℤ) (r : ℚ) :
    Finsupp.single (Base.int m) r .imaginary = 0 :=
  Finsupp.single_eq_of_ne nofun

theorem single_int_int {m k : ℤ} (h : k ≠ m) (r : ℚ) : Finsupp.single (Base.int m) r (.int k) = 0 :=
  Finsupp.single_eq_of_ne fun heq => h (Base.int.inj heq)

namespace FormalRoot

/-- The integers in a formal root are radicals, to the exponent `1 / q`. -/
theorem ofInt_int (hq : 0 < q) (m : ℤ) : (ofInt n q).exponents (.int m) = 0 ∨
    (ofInt n q).exponents (.int m) = 1 / q ∧ Radical n q m := by
  refine ofInt_cases (motive := fun t => t.exponents (.int m) = 0 ∨
    t.exponents (.int m) = 1 / q ∧ Radical n q m) hq (fun t _ _ => ?_) (fun r _ _ _ => ?_)
    (fun hneg hq2 hnone => ?_) fun hdegree hnone => ?_
  · exact .inl rfl
  · exact .inl (single_imaginary_int 1 m)
  · rw [Finsupp.add_apply, single_imaginary_int, zero_add]
    by_cases hm : m = n.natAbs
    · subst hm
      rw [Finsupp.single_eq_same, hq2, Nat.cast_ofNat]
      exact .inr ⟨rfl, .inl rfl, by rwa [Int.natAbs_natCast, ← hq2],
        fun hneg' => absurd hneg' (Int.natCast_nonneg _).not_gt⟩
    · exact .inl (single_int_int hm _)
  · by_cases hm : m = n
    · subst hm
      rw [Finsupp.single_eq_same]
      exact .inr ⟨rfl, .inr rfl, hnone, fun hneg => ⟨hneg, hdegree hneg⟩⟩
    · exact .inl (single_int_int hm _)

/-- The imaginary unit occurs in a formal root with the exponent one or not at all. -/
theorem ofInt_imaginary (hq : 0 < q) :
    (ofInt n q).exponents .imaginary = 0 ∧ ¬ ImaginarySign n q ∨
      (ofInt n q).exponents .imaginary = 1 ∧ ImaginarySign n q := by
  refine ofInt_cases (motive := fun t => t.exponents .imaginary = 0 ∧ ¬ ImaginarySign n q ∨
    t.exponents .imaginary = 1 ∧ ImaginarySign n q) hq (fun t ht _ => ?_)
    (fun r hneg heven hr => ?_) (fun hneg hq2 _ => ?_) fun hdegree hnone => ?_
  · exact .inl ⟨rfl, fun ⟨hneg, heven, _⟩ => not_neg_of_pow ht ⟨hneg, heven⟩⟩
  · exact .inr ⟨Finsupp.single_eq_same, hneg, heven, .inr ⟨r, hr⟩⟩
  · refine .inr ⟨?_, hneg, by rw [hq2], .inl hq2⟩
    rw [Finsupp.add_apply, Finsupp.single_eq_same, single_int_imaginary, add_zero]
  · refine .inl ⟨single_int_imaginary n _, ?_⟩
    rintro ⟨hneg, -, hq2 | ⟨r, hr⟩⟩
    · exact hdegree hneg hq2
    · exact hnone r hr

theorem ofInt_natCast_imaginary (hq : 0 < q) (d : ℕ) : (ofInt d q).exponents .imaginary = 0 := by
  rcases ofInt_imaginary (n := d) hq with ⟨hzero, -⟩ | ⟨-, hneg, -⟩
  · exact hzero
  · exact absurd hneg (Int.natCast_nonneg d).not_gt

theorem ofInt_coef_ne_zero (hq : 0 < q) (hn : n ≠ 0) : (ofInt n q).coef ≠ 0 := by
  refine ofInt_cases (motive := fun t => t.coef ≠ 0) hq (fun t ht _ => ?_) (fun r _ _ hr => ?_)
    (fun _ _ _ => one_ne_zero) fun _ _ => one_ne_zero
  · exact Int.cast_ne_zero.2 (ne_zero_pow hq.ne' (by rwa [ht]))
  · exact Nat.cast_ne_zero.2 (ne_zero_pow hq.ne' (by rwa [hr, Int.natAbs_ne_zero]))

theorem ofInt_coef_pos (hq : 0 < q) (hn : 0 < n) : 0 < (ofInt n q).coef := by
  refine ofInt_cases (motive := fun t => 0 < t.coef) hq (fun t ht hsign => ?_)
    (fun r hneg _ _ => absurd hn hneg.not_gt) (fun _ _ _ => one_pos) fun _ _ => one_pos
  rw [← ht] at hn
  rcases Nat.even_or_odd q with heven | hodd
  · have ht0 : t ≠ 0 := ne_zero_pow hq.ne' hn.ne'
    exact Int.cast_pos.2 ((hsign (Nat.even_iff.1 heven)).lt_of_ne ht0.symm)
  · exact Int.cast_pos.2 (hodd.pow_pos_iff.1 hn)

/-- Only an exact root has nothing else beside its coefficient. -/
theorem exists_root_of_exponents (hq : 0 < q) :
    (ofInt n q).exponents = 0 → ∃ t : ℤ, t ^ q = n ∧ (q % 2 = 0 → 0 ≤ t) := by
  refine ofInt_cases (motive := fun t => t.exponents = 0 → _) hq
    (fun t ht hsign _ => ⟨t, ht, hsign⟩) (fun r _ _ _ h => ?_) (fun _ _ _ h => ?_) fun _ _ h => ?_
  · exact absurd h (Finsupp.single_ne_zero.2 one_ne_zero)
  · have himag := DFunLike.congr_fun h Base.imaginary
    rw [Finsupp.add_apply, Finsupp.single_eq_same, single_int_imaginary, add_zero] at himag
    exact absurd himag one_ne_zero
  · have hexp : (1 : ℚ) / q ≠ 0 := one_div_ne_zero (Nat.cast_ne_zero.2 hq.ne')
    exact absurd h (Finsupp.single_ne_zero.2 hexp)

/-! ## The formal root is a root -/

/-- The imaginary unit goes `m` times round in `2 * m` copies. -/
theorem isRoot_imaginary {r m : ℕ} (hr : r ^ q = n.natAbs) (hm : q = m * 2) :
    IsRoot q (n.natAbs * (-1) ^ m) r (.single .imaginary 1) := by
  have hround : (q : ℚ) * 1 = (m : ℤ) * Base.imaginary.period := by
    rw [hm, mul_one, Nat.cast_mul, Int.cast_natCast, Base.period]
  have hroot := (isRoot_const q r).mul (isRoot_single Base.regular_imaginary_one hround)
  rwa [mul_one, zero_add, ← Nat.cast_pow, hr, zpow_natCast, Base.turn] at hroot

theorem isRoot_radical (hq : 0 < q) (hn : n ≠ 0) : IsRoot q n 1 (.single (.int n) (1 / q)) := by
  have hround : (q : ℚ) * (1 / q) = (1 : ℤ) * (Base.int n).period := by
    rw [mul_one_div_cancel (Nat.cast_ne_zero.2 hq.ne'), Int.cast_one, one_mul, Base.period,
      Nat.cast_one]
  have hroot := isRoot_single (Base.regular_int hn _) hround
  rwa [zpow_one] at hroot

theorem isRoot_square (hn : n < 0) :
    IsRoot 2 n 1 (.single .imaginary 1 + .single (.int n.natAbs) (1 / 2)) := by
  have hround : ((2 : ℕ) : ℚ) * 1 = (1 : ℤ) * Base.imaginary.period := by
    rw [mul_one, Int.cast_one, one_mul, Base.period]
  have hvalue : -1 * ((n.natAbs : ℤ) : ℚ) = n := by
    rw [Int.ofNat_natAbs_of_nonpos hn.le, Int.cast_neg, neg_mul_neg, one_mul]
  have hroot := (isRoot_single Base.regular_imaginary_one hround).mul
    (isRoot_radical (n := n.natAbs) two_pos (by omega))
  rwa [zpow_one, Base.turn, hvalue, one_mul, Nat.cast_ofNat] at hroot

/-- The formal root of an integer is a root, unless the imaginary unit appears in a degree that four
divides. -/
theorem isRoot_ofInt (hq : 0 < q)
    (hfour : n < 0 → q % 4 = 0 → ∀ r : ℕ, r ^ q ≠ n.natAbs) :
    IsRoot q n (ofInt n q).coef (ofInt n q).exponents := by
  have hneg : n < 0 → (n.natAbs : ℚ) * (-1) = n := fun hn => by
    rw [mul_neg_one, Nat.cast_natAbs, abs_of_neg hn, Int.cast_neg, neg_neg]
  refine ofInt_cases (motive := fun t => IsRoot q n t.coef t.exponents) hq (fun t ht _ => ?_)
    (fun r hn heven hr => ?_) (fun hn hq2 _ => ?_) fun _ hnone => ?_
  · have hroot := isRoot_const q t
    rwa [← Int.cast_pow, ht] at hroot
  · have hodd : Odd (q / 2) := by
      have hne : q % 4 ≠ 0 := fun h4 => hfour hn h4 r hr
      exact Nat.odd_iff.2 (by omega)
    have hroot := isRoot_imaginary hr (m := q / 2) (by omega)
    rwa [hodd.neg_one_pow, hneg hn] at hroot
  · rw [hq2]
    exact isRoot_square hn
  · exact isRoot_radical hq (ne_zero_of_no_root hq hnone)

/-- In a degree that four divides the imaginary unit goes round to one. -/
theorem isRoot_ofInt_of_four_dvd (hq : 0 < q) (hn : n < 0) (hfour : q % 4 = 0) {r : ℕ}
    (hr : r ^ q = n.natAbs) : IsRoot q (-n) (ofInt n q).coef (ofInt n q).exponents := by
  have heven : Even (q / 2) := Nat.even_iff.2 (by omega)
  have hroot := isRoot_imaginary hr (m := q / 2) (by omega)
  rw [heven.neg_one_pow, mul_one, Nat.cast_natAbs, abs_of_neg hn, Int.cast_neg] at hroot
  rw [ofInt_of_imaginary hq hn (by omega) hr]
  exact hroot

/-! ## Powers of a formal root -/

/-- The surd `x` is the form of the `p`-th power of the formal root `t`. -/
def IsPower (t : FormalRoot) (p : ℤ) (x : Surd) : Prop :=
  FormOf (t.coef ^ p) (p • t.exponents) x

variable {s t : FormalRoot} {k l p : ℤ} {x y z : Surd}

theorem IsPower.mul (ht : t.coef ≠ 0) (hx : t.IsPower k x) (hy : t.IsPower l y)
    (h : x.mul y = .ok z) : t.IsPower (k + l) z := by
  have hform := FormOf.mul hx hy h
  rwa [← zpow_add₀ ht, ← add_zsmul] at hform

theorem IsPower.mul_inv (hx : s.IsPower p x) (hy : t.IsPower (-p) y) (h : x.mul y = .ok z) :
    IsPower ⟨s.coef / t.coef, s.exponents - t.exponents⟩ p z := by
  have hform := FormOf.mul hx hy h
  rwa [zpow_neg, neg_zsmul, ← div_eq_mul_inv, ← div_zpow, ← sub_eq_add_neg, ← zsmul_sub] at hform

end FormalRoot

end Surds
