import Mathlib.Algebra.Order.Field.Basic
import Mathlib.Algebra.Order.Ring.Rat
import Mathlib.Data.List.Sort
import Mathlib.Order.Compare
import Mathlib.Tactic.FieldSimp
import Surds.Proofs.Scalar.Value
import Surds.Surd.Order

/-!
# The order of the rational numbers

Each pair of kinds of scalars is compared in its own way. With positive denominators all four ways
come to cross-multiplication (`cmp_eq_cross`), so that canonical scalars are ordered as their values
are (`cmp_eq_compare_value`), and fractions the same way against fractions, integers and surds.
Scalars of one value are one scalar, so the order is strict and total on canonical scalars.

A list of canonical scalars therefore has one ascending arrangement (`eq_of_ascending`), and a sort
that is correct for them (`Sorts`) finds it, in whatever order the scalars are given.
-/

namespace Surds

/-- A positive factor keeps the order. -/
theorem compare_mul_right {R : Type*} [Semiring R] [LinearOrder R] [IsStrictOrderedRing R] (x y : R)
    {d : R} (hd : 0 < d) : compare (x * d) (y * d) = compare x y := by
  rw [← cmp_eq_compare, ← cmp_eq_compare, cmp_mul_pos_right hd]

theorem compare_intCast (m n : ℤ) : compare (m : ℚ) n = compare m n := by
  rw [← cmp_eq_compare, ← cmp_eq_compare]
  exact Int.cast_strictMono.cmp_map_eq m n

namespace Scalar

variable {a b c : Scalar}

/-! ## Comparison by value -/

/-- Scalars of all kinds are compared by cross-multiplication. -/
theorem cmp_eq_cross (ha : 0 < a.den) (hb : 0 < b.den) :
    a.cmp b = compare (a.num * b.den) (b.num * a.den) := by
  cases a with
  | whole m =>
    cases b with
    | whole n => simp [cmp]
    | frac g => simp [cmp, Fraction.cmpInt, Int.compare_swap]
  | frac f =>
    cases b with
    | whole n => simp [cmp, Fraction.cmpInt]
    | frac g =>
      simp only [cmp, Fraction.cmp, num_frac, den_frac]
      split_ifs with hden
      · rw [hden]
        exact (compare_mul_right _ _ (Int.natCast_pos.2 hb)).symm
      · rfl

/-- Canonical scalars are ordered as their values are. -/
theorem cmp_eq_compare_value (ha : a.Canonical) (hb : b.Canonical) :
    a.cmp b = compare a.value b.value := by
  have hda : (0 : ℚ) < a.den := Nat.cast_pos.2 ha.den_pos
  have hdb : (0 : ℚ) < b.den := Nat.cast_pos.2 hb.den_pos
  have hleft : a.value * (a.den * b.den) = ((a.num * b.den : ℤ) : ℚ) := by
    rw [ha.value_eq_div]
    push_cast
    field_simp
  have hright : b.value * (a.den * b.den) = ((b.num * a.den : ℤ) : ℚ) := by
    rw [hb.value_eq_div]
    push_cast
    field_simp
  rw [← compare_mul_right _ _ (mul_pos hda hdb), hleft, hright, compare_intCast,
    cmp_eq_cross ha.den_pos hb.den_pos]

theorem cmp_eq_eq_iff (ha : a.Canonical) (hb : b.Canonical) : a.cmp b = .eq ↔ a = b := by
  rw [cmp_eq_compare_value ha hb, compare_eq_iff_eq, ha.value_eq_iff hb]

theorem cmp_eq_lt_iff (ha : a.Canonical) (hb : b.Canonical) :
    a.cmp b = .lt ↔ a.value < b.value := by
  rw [cmp_eq_compare_value ha hb, compare_lt_iff_lt]

theorem cmp_ne_gt_iff (ha : a.Canonical) (hb : b.Canonical) :
    a.cmp b ≠ .gt ↔ a.value ≤ b.value := by
  rw [cmp_eq_compare_value ha hb, compare_le_iff_le]

theorem cmp_swap_of_canonical (ha : a.Canonical) (hb : b.Canonical) :
    b.cmp a = (a.cmp b).swap := by
  rw [cmp_eq_compare_value ha hb, cmp_eq_compare_value hb ha]
  exact Std.OrientedOrd.eq_swap

/-- On canonical scalars the order is strict and total. -/
theorem isStrictTotalOrder_canonical :
    IsStrictTotalOrder {a : Scalar // a.Canonical} fun a b => a.1.cmp b.1 = .lt where
  irrefl := fun a h => lt_irrefl _ ((cmp_eq_lt_iff a.2 a.2).1 h)
  trans := fun a b c hab hbc => (cmp_eq_lt_iff a.2 c.2).2
    (((cmp_eq_lt_iff a.2 b.2).1 hab).trans ((cmp_eq_lt_iff b.2 c.2).1 hbc))
  trichotomous := fun a b hab hba => Subtype.ext <| a.2.ext b.2 <| le_antisymm
    (not_lt.1 fun h => hba ((cmp_eq_lt_iff b.2 a.2).2 h))
    (not_lt.1 fun h => hab ((cmp_eq_lt_iff a.2 b.2).2 h))

/-! ## Sorting -/

/-- No scalar of the list is greater than a later one. -/
def Ascending (l : List Scalar) : Prop :=
  l.Pairwise fun a b => a.cmp b ≠ .gt

/-- The function arranges every list of canonical scalars in ascending order. -/
def Sorts (arrange : List Scalar → List Scalar) : Prop :=
  ∀ l : List Scalar, (∀ a ∈ l, a.Canonical) → (arrange l).Perm l ∧ Ascending (arrange l)

/-- Canonical scalars have one ascending arrangement. -/
theorem eq_of_ascending {l l' : List Scalar} (hl : ∀ a ∈ l, a.Canonical) (h : l.Perm l')
    (hasc : Ascending l) (hasc' : Ascending l') : l = l' := by
  refine h.eq_of_pairwise (fun a b ha hb hab hba => ?_) hasc hasc'
  have hca := hl a ha
  have hcb := hl b (h.mem_iff.2 hb)
  exact hca.ext hcb (le_antisymm ((cmp_ne_gt_iff hca hcb).1 hab) ((cmp_ne_gt_iff hcb hca).1 hba))

/-- A correct sort makes the same list of all arrangements of one list. -/
theorem Sorts.eq_of_perm {arrange : List Scalar → List Scalar} (hsorts : Sorts arrange)
    {l l' : List Scalar} (hl : ∀ a ∈ l, a.Canonical) (h : l.Perm l') : arrange l = arrange l' := by
  have hl' : ∀ a ∈ l', a.Canonical := fun a ha => hl a (h.mem_iff.2 ha)
  obtain ⟨hperm, hasc⟩ := hsorts l hl
  obtain ⟨hperm', hasc'⟩ := hsorts l' hl'
  exact eq_of_ascending (fun a ha => hl a (hperm.mem_iff.1 ha))
    (hperm.trans (h.trans hperm'.symm)) hasc hasc'

/-- Sorting by the order of scalars is sorting by value. -/
theorem map_value_sort {l : List Scalar} (hl : ∀ a ∈ l, a.Canonical) :
    (sort l).map value = (l.map value).mergeSort := by
  refine List.map_mergeSort fun a ha b hb => ?_
  rw [Bool.eq_iff_iff, Ordering.isLE_iff_ne_gt, decide_eq_true_iff]
  exact cmp_ne_gt_iff (hl a ha) (hl b hb)

theorem sorts_sort : Sorts sort := by
  intro l hl
  have hperm : (sort l).Perm l := List.mergeSort_perm _ _
  have hvalues : ((sort l).map value).Pairwise (· ≤ ·) := by
    rw [map_value_sort hl]
    exact List.pairwise_mergeSort' _ _
  refine ⟨hperm, (List.pairwise_map.1 hvalues).imp_of_mem fun ha hb hle => ?_⟩
  exact (cmp_ne_gt_iff (hl _ (hperm.mem_iff.1 ha)) (hl _ (hperm.mem_iff.1 hb))).2 hle

/-! ## Laws -/

/-- The order of the scalars `a` and `b` is that of their values. -/
structure OrderLaws (a b : Scalar) : Prop where
  cmp_eq : a.cmp b = compare a.value b.value
  eq_iff : a.cmp b = .eq ↔ a = b
  swap : b.cmp a = (a.cmp b).swap
  /-- A fraction is ordered in the same way relative to surds, -/
  surd : ∀ f, a = frac f → f.cmpSurd? (.scalar b) = .ok (a.cmp b)
  /-- to fractions -/
  fraction : ∀ f g, a = frac f → b = frac g → f.cmp g = a.cmp b
  /-- and to integers. -/
  integer : ∀ f n, a = frac f → b = whole n → f.cmpInt n = a.cmp b

/-- Canonical scalars are in a strict total order, that of their values, in which all comparisons
agree. So all arrangements of one list are sorted to one list. -/
theorem orderLaws_of_canonical (ha : a.Canonical) (hb : b.Canonical) :
    OrderLaws a b ∧
      (∀ (f : Fraction) (x : Surd) (w : Failure),
        f.cmpSurd? x = .error w ↔ w = .unorderedValue ∧ x.isScalar = false) ∧
      (IsStrictTotalOrder {a : Scalar // a.Canonical} fun a b => a.1.cmp b.1 = .lt) ∧
      Sorts sort ∧
      ∀ arrange, Sorts arrange → ∀ l l' : List Scalar, (∀ a ∈ l, a.Canonical) → l.Perm l' →
        arrange l = arrange l' := by
  refine ⟨?_, fun _ _ _ => Fraction.cmpSurd?_eq_error_iff, isStrictTotalOrder_canonical, sorts_sort,
    fun _ hsorts _ _ hl h => hsorts.eq_of_perm hl h⟩
  exact {
    cmp_eq := cmp_eq_compare_value ha hb
    eq_iff := cmp_eq_eq_iff ha hb
    swap := cmp_swap_of_canonical ha hb
    surd := fun f h => h ▸ Fraction.cmpSurd?_scalar f b
    fraction := by
      rintro f g rfl rfl
      rfl
    integer := by
      rintro f n rfl rfl
      rfl }

/-- A fraction just below an integer, and two arrangements of scalars of both kinds. -/
theorem orderLaws_of_mixed_kinds :
    OrderLaws (.frac ⟨-5, 4⟩) (.whole (-1)) ∧ (Scalar.frac ⟨-5, 4⟩).cmp (.whole (-1)) = .lt ∧
      sort [.frac ⟨3, 2⟩, .whole (-1), .frac ⟨-5, 4⟩] =
        sort [.whole (-1), .frac ⟨-5, 4⟩, .frac ⟨3, 2⟩] := by
  obtain ⟨hlaws, -, -, hsort, hperm⟩ :=
    orderLaws_of_canonical (a := .frac ⟨-5, 4⟩) (b := .whole (-1)) (by decide) (by decide)
  exact ⟨hlaws, by decide, hperm sort hsort _ _ (by decide) (by decide)⟩

end Scalar

end Surds
