import Mathlib.Algebra.Order.Ring.Abs
import Mathlib.Data.Nat.GCD.Basic
import Mathlib.Data.Sign.Basic
import Surds.Proofs.Root
import Surds.Proofs.Scalar.Power

/-!
# Exact roots of scalars

A fraction has a root when both its parts have one (`Fraction.root?_eq_some_iff`). For a canonical
scalar this misses no root : powers of coprime numbers are coprime, so the numerator and the
denominator of a rational root are roots of those of the scalar (`Scalar.pow_num_den`). A whole
number therefore has whole roots only, and a fraction in lowest terms none that is whole.

The root that is found is again in lowest terms (`Scalar.canonical_of_root?`), and of an even degree
it is the one that is not negative (`Scalar.root?_of_canonical`).
-/

namespace Surds

namespace Fraction

variable {f g : Fraction} {n : ℕ}

/-- A fraction of exact roots is found just when both parts have one. -/
theorem root?_eq_some_iff (hn : 0 < n) : f.root? n = .ok (some g) ↔
    g.num ^ n = f.num ∧ g.den ^ n = f.den ∧ (n % 2 = 0 → 0 ≤ g.num) := by
  constructor
  · intro h
    rw [root?_eq_bind, bind_eq_ok_iff] at h
    obtain ⟨above, habove, h⟩ := h
    obtain ⟨t, rfl, hmap⟩ := Option.bind_eq_some_iff.1 (Except.ok.inj h)
    obtain ⟨u, hu, rfl⟩ := Option.map_eq_some_iff.1 hmap
    obtain ⟨ht, hsign⟩ := (intRoot?_eq_some_iff hn).1 habove
    exact ⟨ht, (exactRoot?_eq_some_iff hn).1 hu, hsign⟩
  · rintro ⟨hnum, hden, hsign⟩
    rw [root?_eq_bind, (intRoot?_eq_some_iff hn).2 ⟨hnum, hsign⟩]
    show Except.ok (Option.map _ _) = _
    rw [(exactRoot?_eq_some_iff hn).2 hden]
    rfl

/-- Exact roots of coprime numbers are coprime, and the root of a denominator exceeds one. -/
theorem Canonical.root (hf : f.Canonical) (hn : n ≠ 0) (hnum : g.num ^ n = f.num)
    (hden : g.den ^ n = f.den) : g.Canonical := by
  obtain ⟨hone, hcop⟩ := hf
  rw [← hnum, ← hden, Int.natAbs_pow] at hcop
  rw [← hden] at hone
  have hpos : 0 < n := Nat.pos_of_ne_zero hn
  exact ⟨(Nat.one_lt_pow_iff hn).1 hone, (Nat.coprime_pow_left_iff hpos _ _).1
    ((Nat.coprime_pow_right_iff hpos _ _).1 hcop)⟩

/-- The root that is found of a canonical fraction is a canonical fraction. -/
theorem Canonical.of_root? (hf : f.Canonical) (h : f.root? n = .ok (some g)) : g.Canonical := by
  rcases Nat.eq_zero_or_pos n with rfl | hn
  · exact absurd (show Except.error Failure.zerothRoot = _ from h) nofun
  · obtain ⟨hnum, hden, -⟩ := (root?_eq_some_iff hn).1 h
    exact hf.root hn.ne' hnum hden

/-- The search for a root of a positive degree does not fail. -/
theorem exists_root? (hn : 0 < n) (f : Fraction) : ∃ o, f.root? n = .ok o := by
  obtain ⟨above, habove⟩ := exists_intRoot? hn f.num
  rw [root?_eq_bind]
  exact ⟨_, bind_eq_ok_iff.2 ⟨above, habove, rfl⟩⟩

end Fraction

namespace Scalar

variable {a r : Scalar} {n : ℕ}

/-- Both are whole numbers, or both are fractions. -/
def SameKind : Scalar → Scalar → Prop
  | whole _, whole _ => True
  | frac _, frac _ => True
  | _, _ => False

/-- Canonical scalars are told apart by their denominators. -/
theorem Canonical.sameKind_iff :
    ∀ {a r : Scalar}, a.Canonical → r.Canonical → (SameKind a r ↔ (a.den = 1 ↔ r.den = 1))
  | whole _, whole _, _, _ => iff_of_true trivial (iff_of_true rfl rfl)
  | whole _, frac _, _, hr => iff_of_false id fun h => hr.1.ne' (h.1 rfl)
  | frac _, whole _, ha, _ => iff_of_false id fun h => ha.1.ne' (h.2 rfl)
  | frac _, frac _, ha, hr => iff_of_true trivial (iff_of_false ha.1.ne' hr.1.ne')

/-! ## Search -/

theorem root?_zero : ∀ a : Scalar, a.root? 0 = .error .zerothRoot
  | whole _ => rfl
  | frac _ => rfl

/-- The search for a root of a positive degree does not fail. -/
theorem exists_root? (hn : 0 < n) : ∀ a : Scalar, ∃ o, a.root? n = .ok o
  | whole m => by
    obtain ⟨o, ho⟩ := exists_intRoot? hn m
    exact ⟨_, bind_eq_ok_iff.2 ⟨o, ho, rfl⟩⟩
  | frac f => by
    obtain ⟨o, ho⟩ := f.exists_root? hn
    exact ⟨_, bind_eq_ok_iff.2 ⟨o, ho, rfl⟩⟩

/-- A root is found of the numerator and of the denominator apart, and keeps the kind. -/
theorem root?_eq_some_iff (hn : 0 < n) : ∀ {a r : Scalar}, a.root? n = .ok (some r) ↔
    SameKind a r ∧ r.num ^ n = a.num ∧ r.den ^ n = a.den ∧ (n % 2 = 0 → 0 ≤ r.num)
  | whole a, r => by
    rw [root?_whole, map_eq_ok_some_iff]
    simp only [intRoot?_eq_some_iff hn]
    cases r with
    | whole t => simp [SameKind]
    | frac g => simp [SameKind]
  | frac f, r => by
    rw [root?_frac, map_eq_ok_some_iff]
    simp only [Fraction.root?_eq_some_iff hn]
    cases r with
    | whole t => simp [SameKind]
    | frac g => simp [SameKind]

/-- The root that is found of a canonical scalar is canonical. -/
theorem canonical_of_root? :
    ∀ {a r : Scalar}, a.Canonical → a.root? n = .ok (some r) → r.Canonical
  | whole _, _, _, h => by
    obtain ⟨t, -, rfl⟩ := map_eq_ok_some_iff.1 h
    trivial
  | frac _, _, hf, h => by
    obtain ⟨g, hg, rfl⟩ := map_eq_ok_some_iff.1 h
    exact Fraction.Canonical.of_root? hf hg

theorem value_pow_of_root? (hn : 0 < n) (h : a.root? n = .ok (some r)) :
    r.value ^ n = a.value := by
  obtain ⟨-, hnum, hden, -⟩ := (root?_eq_some_iff hn).1 h
  rw [value, value, Rat.mkRat_eq_div, Rat.mkRat_eq_div, div_pow, ← hnum, ← hden]
  push_cast
  rfl

/-! ## Rational roots -/

/-- A rational root of a scalar has roots of its numerator and denominator above and below. -/
theorem pow_num_den (ha : a.Canonical) {t : ℚ} (ht : t ^ n = a.value) :
    t.num ^ n = a.num ∧ t.den ^ n = a.den := by
  rw [← ha.num_value, ← ha.den_value, ← ht, Rat.num_pow, Rat.den_pow]
  exact ⟨rfl, rfl⟩

/-- If there is a root at all, there is one that is not negative if the degree is even. -/
theorem exists_nonneg_root {t c : ℚ} (ht : t ^ n = c) :
    ∃ s : ℚ, s ^ n = c ∧ (n % 2 = 0 → 0 ≤ s) := by
  rcases Nat.even_or_odd n with heven | hodd
  · exact ⟨|t|, by rw [heven.pow_abs, ht], fun _ => abs_nonneg t⟩
  · have hne : n % 2 ≠ 0 := by rw [Nat.odd_iff.1 hodd]; exact one_ne_zero
    exact ⟨t, ht, fun heven => absurd heven hne⟩

/-- The search finds the rational roots. -/
theorem root?_eq_some_ofRat (ha : a.Canonical) (hn : 0 < n) {t : ℚ} (ht : t ^ n = a.value)
    (hsign : n % 2 = 0 → 0 ≤ t) : a.root? n = .ok (some (ofRat t)) := by
  obtain ⟨hnum, hden⟩ := pow_num_den ha ht
  have hkind : a.den = 1 ↔ t.den = 1 := by rw [← hden, Nat.pow_eq_one, or_iff_left hn.ne']
  rw [root?_eq_some_iff hn, ha.sameKind_iff (canonical_ofRat t), ofRat, num_ofReduced,
    den_ofReduced]
  exact ⟨hkind, hnum, hden, fun heven => Rat.num_nonneg.2 (hsign heven)⟩

/-- The scalar `r` is the exact root of degree `n` of the scalar `a`. -/
structure ExactRoot (n : ℕ) (a r : Scalar) : Prop where
  canonical : r.Canonical
  kind : SameKind a r
  pow : r.value ^ n = a.value
  nonneg : n % 2 = 0 → 0 ≤ r.value
  sign : n % 2 = 1 → SignType.sign r.value = SignType.sign a.value

theorem exactRoot_of_root? (ha : a.Canonical) (hn : 0 < n) (h : a.root? n = .ok (some r)) :
    ExactRoot n a r := by
  obtain ⟨hkind, -, -, hsign⟩ := (root?_eq_some_iff hn).1 h
  have hr := canonical_of_root? ha h
  have hpow := value_pow_of_root? hn h
  refine ⟨hr, hkind, hpow, fun heven => ?_, fun hodd => ?_⟩
  · rw [← Rat.num_nonneg, hr.num_value]
    exact hsign heven
  · rw [← hpow, sign_pow, SignType.pow_odd _ (Nat.odd_iff.2 hodd)]

/-- Exact roots of canonical scalars are found if and only if they exist. -/
theorem root?_of_canonical (ha : a.Canonical) : a.root? 0 = .error .zerothRoot ∧
    ∀ n, 0 < n → ((∃ r, a.root? n = .ok (some r)) ↔ ∃ s : ℚ, s ^ n = a.value) ∧
      (∀ r, a.root? n = .ok (some r) → ExactRoot n a r) ∧
      ((∀ s : ℚ, s ^ n ≠ a.value) → a.root? n = .ok none) := by
  refine ⟨root?_zero a, fun n hn => ?_⟩
  have hexists : (∃ r, a.root? n = .ok (some r)) ↔ ∃ s : ℚ, s ^ n = a.value := by
    constructor
    · rintro ⟨r, hr⟩
      exact ⟨r.value, value_pow_of_root? hn hr⟩
    · rintro ⟨s, hs⟩
      obtain ⟨t, ht, hsign⟩ := exists_nonneg_root hs
      exact ⟨_, root?_eq_some_ofRat ha hn ht hsign⟩
  refine ⟨hexists, fun r hr => exactRoot_of_root? ha hn hr, fun hnone => ?_⟩
  obtain ⟨o, ho⟩ := exists_root? hn a
  cases o with
  | none => exact ho
  | some r =>
    obtain ⟨s, hs⟩ := hexists.1 ⟨r, ho⟩
    exact absurd hs (hnone s)

/-- The fifth root of a negative fraction, and a fraction that has no square root although its
numerator has one. -/
theorem root?_of_fractions :
    ExactRoot 5 (.frac ⟨-32, 243⟩) (.frac ⟨-2, 3⟩) ∧
      (Scalar.frac ⟨4, 3⟩).root? 2 = .ok none ∧ ¬ ∃ s : ℚ, s ^ 2 = (Scalar.frac ⟨4, 3⟩).value := by
  obtain ⟨-, hodd⟩ := root?_of_canonical (a := .frac ⟨-32, 243⟩) (by decide)
  obtain ⟨-, heven⟩ := root?_of_canonical (a := .frac ⟨4, 3⟩) (by decide)
  have hnone : (Scalar.frac ⟨4, 3⟩).root? 2 = .ok none := rfl
  refine ⟨(hodd 5 (by decide)).2.1 _ rfl, hnone, fun h => ?_⟩
  obtain ⟨r, hr⟩ := (heven 2 (by decide)).1.2 h
  rw [hnone] at hr
  exact absurd hr nofun

end Scalar

end Surds
