import Mathlib.Data.Rat.Floor
import Surds.Scalar.Basic

/-!
# Scalars as rational numbers

`Scalar.value` is the rational number of a scalar, and `Scalar.ofRat` the canonical scalar of a
rational number. On canonical scalars the two are inverse to each other (`Canonical.ofRat_value`,
`value_ofRat`), so two canonical scalars of one value are the same (`Canonical.ext`), and a scalar
operation is known once it is written as `ofRat` of a rational number :

* `reduce n d` is `ofRat (mkRat n d)`, and so is every quotient (`reduce_eq_ofRat`, `quotient?_eq`);
* sums and products of canonical scalars are those of the values (`add_eq_ofRat`, `mul_eq_ofRat`).
-/

namespace Surds

theorem Fraction.Canonical.den_pos {f : Fraction} (h : f.Canonical) : 0 < f.den :=
  Nat.lt_of_succ_lt h.1

namespace Scalar

/-- The canonical scalar of a rational number. -/
def ofRat (q : ℚ) : Scalar :=
  ofReduced q.num q.den

@[simp] theorem num_ofReduced (n : ℤ) (d : ℕ) : (ofReduced n d).num = n := by
  rw [ofReduced_eq_ite]
  split_ifs <;> rfl

@[simp] theorem den_ofReduced (n : ℤ) (d : ℕ) : (ofReduced n d).den = d := by
  rw [ofReduced_eq_ite]
  split_ifs with h
  · exact h.symm
  · rfl

@[simp] theorem value_ofReduced (n : ℤ) (d : ℕ) : (ofReduced n d).value = mkRat n d := by
  simp [value]

/-- A pair in lowest terms makes a canonical scalar. -/
theorem canonical_ofReduced {n : ℤ} {d : ℕ} (hd : 0 < d) (h : n.natAbs.Coprime d) :
    (ofReduced n d).Canonical := by
  rw [ofReduced_eq_ite]
  split_ifs with h1
  · exact trivial
  · exact ⟨by simp only; omega, h⟩

@[simp] theorem canonical_ofRat (q : ℚ) : (ofRat q).Canonical :=
  canonical_ofReduced q.den_pos q.reduced

@[simp] theorem value_ofRat (q : ℚ) : (ofRat q).value = q := by
  rw [ofRat, value_ofReduced, Rat.mkRat_self]

@[simp] theorem value_whole (n : ℤ) : (whole n).value = n := by
  simp [value, Rat.mkRat_eq_div]

@[simp] theorem value_zero : (0 : Scalar).value = 0 :=
  value_whole 0

@[simp] theorem value_one : (1 : Scalar).value = 1 := by
  exact_mod_cast value_whole 1

@[simp] theorem canonical_whole (n : ℤ) : (whole n).Canonical :=
  trivial

@[simp] theorem canonical_zero : (0 : Scalar).Canonical :=
  trivial

@[simp] theorem canonical_one : (1 : Scalar).Canonical :=
  trivial

namespace Canonical

variable {a b : Scalar}

theorem den_pos : ∀ {a : Scalar}, a.Canonical → 0 < a.den
  | whole _, _ => Nat.one_pos
  | frac _, h => Fraction.Canonical.den_pos h

theorem coprime : ∀ {a : Scalar}, a.Canonical → a.num.natAbs.Coprime a.den
  | whole _, _ => Nat.coprime_one_right _
  | frac _, h => h.2

theorem num_value (h : a.Canonical) : a.value.num = a.num := by
  rw [value, Rat.num_mkRat, if_neg h.den_pos.ne', Nat.gcd_comm, h.coprime.gcd_eq_one]
  simp

theorem den_value (h : a.Canonical) : a.value.den = a.den := by
  rw [value, Rat.den_mkRat, if_neg h.den_pos.ne', Nat.gcd_comm, h.coprime.gcd_eq_one, Nat.div_one]

theorem value_eq_div (_ : a.Canonical) : a.value = a.num / a.den :=
  Rat.mkRat_eq_div _ _

/-- A canonical scalar is the canonical scalar of its value. -/
theorem ofRat_value (h : a.Canonical) : ofRat a.value = a := by
  rw [ofRat, h.num_value, h.den_value, ofReduced_eq_ite]
  cases a with
  | whole n => exact if_pos rfl
  | frac f => exact if_neg h.1.ne'

/-- Every value has one canonical representation. -/
theorem ext (ha : a.Canonical) (hb : b.Canonical) (h : a.value = b.value) : a = b := by
  rw [← ha.ofRat_value, ← hb.ofRat_value, h]

theorem value_eq_iff (ha : a.Canonical) (hb : b.Canonical) : a.value = b.value ↔ a = b :=
  ⟨ha.ext hb, congrArg value⟩

@[simp] theorem value_eq_zero_iff (h : a.Canonical) : a.value = 0 ↔ a = 0 := by
  rw [← h.value_eq_iff canonical_zero, value_zero]

theorem num_eq_zero_iff (h : a.Canonical) : a.num = 0 ↔ a = 0 := by
  rw [← h.value_eq_zero_iff, ← h.num_value, Rat.num_eq_zero]

theorem value_eq_intCast_iff (h : a.Canonical) (n : ℤ) : a.value = n ↔ a = whole n := by
  rw [← h.value_eq_iff (canonical_whole n), value_whole]

theorem value_eq_one_iff (h : a.Canonical) : a.value = 1 ↔ a = 1 := by
  exact_mod_cast h.value_eq_intCast_iff 1

theorem value_eq_neg_one_iff (h : a.Canonical) : a.value = -1 ↔ a = -1 := by
  exact_mod_cast h.value_eq_intCast_iff (-1)

/-- A canonical fraction is no integer. -/
theorem value_ne_intCast {f : Fraction} (h : f.Canonical) (n : ℤ) : (frac f).value ≠ n := by
  intro heq
  have hden := den_value (a := frac f) h
  rw [heq, Rat.den_intCast] at hden
  exact h.1.ne hden

end Canonical

theorem value_neg_iff {a : Scalar} (ha : a.Canonical) : a.value < 0 ↔ a.num < 0 := by
  rw [← ha.num_value, Rat.num_neg]

theorem value_pos_iff {a : Scalar} (ha : a.Canonical) : 0 < a.value ↔ 0 < a.num := by
  rw [← ha.num_value, Rat.num_pos]

/-! ## Construction -/

theorem reduce_eq_ofRat (n : ℤ) {d : ℕ} (hd : 0 < d) : reduce n d = ofRat (mkRat n d) := by
  simp only [reduce_eq_ofReduced, ofRat, Rat.num_mkRat, Rat.den_mkRat, if_neg hd.ne',
    Nat.gcd_comm d]

theorem quotient?_eq (n d : ℤ) : quotient? n d =
    if d = 0 then .error .divisionByZero else .ok (ofRat (n / d)) := by
  rw [quotient?_eq_ite]
  split_ifs with h0 hneg
  · rfl
  · have habs : ((d.natAbs : ℕ) : ℚ) = -d := by
      rw [Nat.cast_natAbs, abs_of_neg hneg, Int.cast_neg]
    rw [reduce_eq_ofRat _ (Int.natAbs_pos.2 h0), Rat.mkRat_eq_div, habs, Int.cast_neg,
      neg_div_neg_eq]
  · have habs : ((d.natAbs : ℕ) : ℚ) = d := by
      rw [Nat.cast_natAbs, abs_of_nonneg (not_lt.1 hneg)]
    rw [reduce_eq_ofRat _ (Int.natAbs_pos.2 h0), Rat.mkRat_eq_div, habs]

theorem quotient?_eq_ok {d : ℤ} (n : ℤ) (hd : d ≠ 0) : quotient? n d = .ok (ofRat (n / d)) := by
  rw [quotient?_eq, if_neg hd]

/-- A canonical scalar is the quotient of its parts. -/
theorem Canonical.quotient?_num_den (ha : a.Canonical) : quotient? a.num a.den = .ok a := by
  rw [quotient?_eq_ok _ (Int.natCast_ne_zero.2 ha.den_pos.ne'), Int.cast_natCast, ← ha.value_eq_div,
    ha.ofRat_value]

theorem canonical_quotient? {n d : ℤ} {a : Scalar} (h : quotient? n d = .ok a) : a.Canonical := by
  rw [quotient?_eq] at h
  split_ifs at h
  rw [← Except.ok.inj h]
  exact canonical_ofRat _

/-! ## Arithmetic -/

variable {a b : Scalar}

theorem add_eq_ofRat (ha : a.Canonical) (hb : b.Canonical) :
    a + b = ofRat (a.value + b.value) := by
  have hda : (a.den : ℚ) ≠ 0 := Nat.cast_ne_zero.2 ha.den_pos.ne'
  have hdb : (b.den : ℚ) ≠ 0 := Nat.cast_ne_zero.2 hb.den_pos.ne'
  rw [add_eq_reduce, reduce_eq_ofRat _ (Nat.mul_pos ha.den_pos hb.den_pos), ha.value_eq_div,
    hb.value_eq_div, Rat.mkRat_eq_div, div_add_div _ _ hda hdb]
  push_cast
  rw [mul_comm (a.den : ℚ) (b.num : ℚ)]

theorem mul_eq_ofRat (ha : a.Canonical) (hb : b.Canonical) :
    a * b = ofRat (a.value * b.value) := by
  rw [mul_eq_reduce, reduce_eq_ofRat _ (Nat.mul_pos ha.den_pos hb.den_pos), ha.value_eq_div,
    hb.value_eq_div, Rat.mkRat_eq_div, div_mul_div_comm]
  push_cast
  rfl

@[simp] theorem value_neg : ∀ a : Scalar, (-a).value = -a.value
  | whole _ => (value_whole _).trans (by simp)
  | frac _ => (Rat.neg_mkRat _ _).symm

theorem canonical_neg : ∀ {a : Scalar}, a.Canonical → (-a).Canonical
  | whole _, _ => trivial
  | frac _, h => ⟨h.1, by simpa using h.2⟩

theorem canonical_add (ha : a.Canonical) (hb : b.Canonical) : (a + b).Canonical := by
  rw [add_eq_ofRat ha hb]
  exact canonical_ofRat _

theorem canonical_mul (ha : a.Canonical) (hb : b.Canonical) : (a * b).Canonical := by
  rw [mul_eq_ofRat ha hb]
  exact canonical_ofRat _

theorem value_add (ha : a.Canonical) (hb : b.Canonical) : (a + b).value = a.value + b.value := by
  rw [add_eq_ofRat ha hb, value_ofRat]

theorem value_mul (ha : a.Canonical) (hb : b.Canonical) : (a * b).value = a.value * b.value := by
  rw [mul_eq_ofRat ha hb, value_ofRat]

end Scalar

end Surds
