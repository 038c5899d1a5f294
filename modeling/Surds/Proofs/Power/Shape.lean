import Mathlib.Algebra.Order.BigOperators.Ring.Finset
import Surds.Proofs.Power.Exact

/-!
# The shape of a power

Beside its coefficient a power of exponent `p / q` keeps roots of degree `q` only (`PowerShape`,
`powerShape_of_power`). They are roots of the denominator, of the numerator or of its magnitude that
are not exact, and the imaginary unit, which stands for the sign of a negative base in square roots
and in even roots that are exact.

All of this is read off the formal root. An integer that occurs in it is a `Radical` and has the
exponent `1 / q` (`ofInt_int`), the imaginary unit has the exponent one (`ofInt_imaginary`), and a
canonical exponent takes neither of them to a whole number of periods.
-/

namespace Surds

open Surd

variable {b : Scalar} {e : Fraction} {z : Surd}

/-- Everything that is carried out of a power of a positive base is positive. -/
theorem prod_carry_pos {f : Base →₀ ℚ} (himag : f .imaginary = 0)
    (hint : ∀ m, f (.int m) ≠ 0 → 0 < m) : 0 < f.prod Base.carry := by
  refine Finset.prod_pos fun c hc => ?_
  have hne := Finsupp.mem_support_iff.1 hc
  cases c with
  | imaginary => exact absurd himag hne
  | int m => exact zpow_pos (Int.cast_pos.2 (hint m hne)) _

/-- The imaginary unit occurs in a power exactly when it stands for the sign, with exponent one. -/
theorem imaginary_of_power (hb : b.Canonical) (he : e.Canonical)
    (h : power b (.frac e) = .ok z) (a : Scalar) :
    z.powers.get? .imaginary = some a ↔ a = 1 ∧ ImaginarySign b.num e.den := by
  have hrest := toFinsupp_power hb he h .imaginary
  rw [(canonical_power (e := .frac e) hb he h).get?_eq_some_iff, hrest]
  rcases FormalRoot.ofScalar_imaginary (b := b) he.den_pos with ⟨himag, hsign⟩ | ⟨himag, hsign⟩
  · rw [himag, zsmul_zero, Base.rest_zero]
    constructor
    · rintro ⟨-, hne, hvalue⟩
      exact absurd hvalue.symm hne
    · exact fun hsign' => absurd hsign'.2 hsign
  · have hodd : e.num % 2 = 1 := Int.odd_iff.1 (he.odd_num hsign.2.1)
    rw [himag, zsmul_one, Base.rest_imaginary, hodd, Int.cast_one]
    constructor
    · rintro ⟨hcan, -, hvalue⟩
      exact ⟨hcan.ext Scalar.canonical_one (by rw [Scalar.value_one, hvalue]), hsign⟩
    · rintro ⟨rfl, -⟩
      exact ⟨Scalar.canonical_one, by rw [Scalar.value_one]; exact one_ne_zero,
        Scalar.value_one.symm⟩

/-- An integer occurs in a power as a radical, and its exponent has the degree as denominator. -/
theorem radical_of_power (hb : b.Canonical) (he : e.Canonical)
    (h : power b (.frac e) = .ok z) {m : ℤ} {a : Scalar} (hget : z.powers.get? (.int m) = some a) :
    (Radical b.den e.den m ∨ Radical b.num e.den m) ∧ a.den = e.den := by
  have hz := canonical_power (e := .frac e) hb he h
  obtain ⟨hcan, hne, hvalue⟩ := hz.get?_eq_some_iff.1 hget
  rw [toFinsupp_power hb he h] at hvalue
  rcases FormalRoot.ofScalar_int (b := b) he.den_pos m with hzero | ⟨hexp, hrad⟩
  · rw [hzero, zsmul_zero, Base.rest_zero] at hvalue
    exact absurd hvalue.symm hne
  · have hm : m ≠ 1 := hrad.elim (·.ne_one) (·.ne_one)
    refine ⟨hrad, ?_⟩
    rw [← hcan.den_value, ← hvalue, den_rest_radical he hm hexp]

theorem coef_pos_of_power (hb : b.Canonical) (he : e.Canonical) (hnum : 0 < b.num)
    (h : power b (.frac e) = .ok z) : 0 < z.coef.value := by
  have hden : (0 : ℤ) < b.den := Int.natCast_pos.2 hb.den_pos
  rw [(isPower_power he h).coef]
  refine mul_pos (zpow_pos (FormalRoot.ofScalar_coef_pos hb he.den_pos hnum) _)
    (prod_carry_pos ?_ fun m hm => ?_)
  · rcases FormalRoot.ofScalar_imaginary (b := b) he.den_pos with ⟨himag, -⟩ | ⟨-, hneg, -⟩
    · rw [Finsupp.smul_apply, himag, zsmul_zero]
    · exact absurd hnum hneg.not_gt
  · rcases FormalRoot.ofScalar_int (b := b) he.den_pos m with hzero | ⟨-, hrad⟩
    · rw [Finsupp.smul_apply, hzero, zsmul_zero] at hm
      exact absurd rfl hm
    · exact hrad.elim (·.pos he.den_pos hden) (·.pos he.den_pos hnum)

/-! ## The shape -/

/-- The shape of a power of exponent `e` of `b`. -/
structure PowerShape (b : Scalar) (e : Fraction) (z : Surd) : Prop where
  /-- Only the denominator, the numerator and its magnitude stand under radicals. -/
  base : ∀ m a, z.powers.get? (.int m) = some a → m = b.den ∨ m = b.num.natAbs ∨ m = b.num
  /-- What stands under a radical has no exact root. -/
  no_root : ∀ m a, z.powers.get? (.int m) = some a → ∀ r : ℕ, r ^ e.den ≠ m.natAbs
  /-- A radical keeps the degree. -/
  degree : ∀ m a, z.powers.get? (.int m) = some a → a.Canonical ∧ a.den = e.den
  /-- No square root has a negative integer under it. -/
  negative : ∀ m a, z.powers.get? (.int m) = some a → m < 0 → b.value < 0 ∧ e.den ≠ 2
  /-- The imaginary unit occurs for the sign of a square root or of an exact even root. -/
  imaginary : (∃ a, z.powers.get? .imaginary = some a) ↔
    b.value < 0 ∧ e.den % 2 = 0 ∧ (e.den = 2 ∨ ∃ r : ℕ, r ^ e.den = b.num.natAbs)
  /-- The imaginary unit has no other exponent than one. -/
  imaginary_exponent : ∀ a, z.powers.get? .imaginary = some a → a = 1
  /-- A power of a positive base has a positive coefficient. -/
  coef_pos : 0 < b.value → 0 < z.coef.value

/-- Every power has the shape of a power. -/
theorem powerShape_of_power (hb : b.Canonical) (he : e.Canonical)
    (h : power b (.frac e) = .ok z) : PowerShape b e z where
  base := fun m a hget => by
    rcases (radical_of_power hb he h hget).1 with hrad | hrad
    · exact .inl (hrad.base.elim (fun hm => by rwa [Int.natAbs_natCast] at hm) id)
    · exact .inr hrad.base
  no_root := fun m a hget => (radical_of_power hb he h hget).1.elim (·.no_root) (·.no_root)
  degree := fun m a hget =>
    ⟨((canonical_power (e := .frac e) hb he h).get?_eq_some_iff.1 hget).1,
      (radical_of_power hb he h hget).2⟩
  negative := fun m a hget hneg => by
    rw [Scalar.value_neg_iff hb]
    rcases (radical_of_power hb he h hget).1 with hrad | hrad
    · exact absurd hneg (hrad.pos he.den_pos (Int.natCast_pos.2 hb.den_pos)).not_gt
    · exact hrad.negative hneg
  imaginary := by
    simp only [imaginary_of_power hb he h, exists_eq_left, Scalar.value_neg_iff hb]
    rfl
  imaginary_exponent := fun a hget => ((imaginary_of_power hb he h a).1 hget).1
  coef_pos := fun hpos => by
    rw [← Rat.num_pos, hb.num_value] at hpos
    exact coef_pos_of_power hb he hpos h

/-- The power of exponent `3/2` of `-12/7` : one exponent is carried above the bar and two below. -/
theorem powerShape_neg_twelve_sevenths :
    let z := product (.frac ⟨-12, 49⟩) (.ofList
      [(.imaginary, 1), (.int 7, .frac ⟨1, 2⟩), (.int 12, .frac ⟨1, 2⟩)])
    power (.frac ⟨-12, 7⟩) (.frac ⟨3, 2⟩) = .ok z ∧ PowerShape (.frac ⟨-12, 7⟩) ⟨3, 2⟩ z := by
  intro z
  have hpower : power (.frac ⟨-12, 7⟩) (.frac ⟨3, 2⟩) = .ok z := rfl
  exact ⟨hpower, powerShape_of_power (by decide) (by decide) hpower⟩

end Surds
