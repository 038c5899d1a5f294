import Surds.Proofs.Runs
import Surds.Proofs.Surd.Fold

/-!
# Grouping products

A product of three surds can be grouped in two ways, and both of them exist. They are the same surd
whenever they take equally many turns out of the exponents of every base. A grouping folds the sum
of two exponents before the third is added, but turns that are taken out early are not taken out
later (`Base.turns_add_turns`) : if the sum of all three folds, what is taken out of it in two steps
is what is taken out of it at once.

For integers every exponent folds, so grouping makes no difference. For the imaginary unit it does :
a sum of three exponents that is no whole number is not folded, and then only what the first step
takes out counts. The imaginary unit times itself is minus one, which the product with its square
root keeps, while the imaginary unit times its square root has the exponent `3/2`, and a second
factor makes this `5/2` (`mul_not_assoc`). Apart from that, multiplication of surds is associative :
the two groupings agree exactly when one factor is zero or the turns of the imaginary unit agree
(`mul_assoc_iff`).
-/

namespace Surds

namespace Base

variable {b : Base} {s t : ℚ}

/-- Taking out periods leaves a folding exponent folding, and no other. -/
theorem folds_sub_iff (k : ℤ) : b.Folds (t - b.period * k) ↔ b.Folds t := by
  cases b with
  | imaginary =>
    have hden : (t - (imaginary.period : ℚ) * k).den = t.den := by
      exact_mod_cast Rat.sub_intCast_den t (imaginary.period * k)
    exact Eq.congr_left hden
  | int n => exact Iff.rfl

/-- The periods taken out of the exponent `t` when its part `s` is folded first. -/
def stepTurns (b : Base) (s t : ℚ) : ℤ :=
  if b.Folds t then b.turns t else b.turns s

theorem stepTurns_zero (b : Base) (s : ℚ) : b.stepTurns s 0 = 0 := by
  rw [stepTurns, if_pos (Regular.zero b).folds, turns_zero]

theorem turns_add_turns (b : Base) (s t : ℚ) :
    b.turns s + b.turns (t - b.period * b.turns s) = b.stepTurns s t := by
  have hp := b.period_ne_zero
  unfold stepTurns
  split_ifs with ht
  · have hdiv : (t - b.period * b.turns s) / b.period = t / b.period - b.turns s := by
      field_simp
    rw [turns_of_folds ht, turns_of_folds ((folds_sub_iff _).2 ht), hdiv, Int.floor_sub_intCast,
      add_sub_cancel]
  · rw [turns_of_not_folds (mt (folds_sub_iff _).1 ht), add_zero]

/-- What two steps contribute is the power of the turns that both of them take out. -/
theorem turn_zpow_mul_turn_zpow (h : b = int 0 → s = 0 ∧ t = 0) :
    b.turn ^ b.turns s * b.turn ^ b.turns (t - b.period * b.turns s) =
      b.turn ^ b.stepTurns s t := by
  by_cases hb : b = int 0
  · obtain ⟨rfl, rfl⟩ := h hb
    simp [stepTurns]
  · rw [← zpow_add₀ (turn_ne_zero hb), turns_add_turns]

end Base

/-! ## Exponents of canonical surds -/

/-- Zero and one do not occur among the bases. -/
def Proper (f : Base →₀ ℚ) : Prop :=
  ∀ b, b = .int 0 ∨ b = .int 1 → f b = 0

namespace Proper

variable {f g : Base →₀ ℚ}

theorem add (hf : Proper f) (hg : Proper g) : Proper (f + g) := by
  intro b hb
  rw [Finsupp.add_apply, hf b hb, hg b hb, add_zero]

theorem contribution_eq (hf : Proper f) (b : Base) :
    b.contribution (f b) = b.turn ^ b.turns (f b) :=
  Base.contribution_eq fun hb => hf b (.inl hb)

theorem remainder_eq (hf : Proper f) (b : Base) :
    b.remainder (f b) = f b - b.period * b.turns (f b) := by
  by_cases hb : b = .int 0 ∨ b = .int 1
  · rw [hf b hb, Base.remainder_zero, Base.turns_zero, Int.cast_zero, mul_zero, sub_zero]
  · exact if_neg hb

end Proper

namespace Surd

variable {c : ℚ} {f : Base →₀ ℚ} {u x y z l : Surd}

theorem Canonical.proper (hx : x.Canonical) : Proper x.powers.toFinsupp :=
  fun _ hb => hx.exponent_eq_zero hb

/-! ## Two steps -/

/-- The sum of exponents that the second step folds, after the turns of the first. -/
theorem FoldOf.powers_add (hu : FoldOf c f u) (hf : Proper f) (hu0 : u ≠ scalar 0)
    (h : Base →₀ ℚ) (b : Base) :
    (u.powers.toFinsupp + h) b = (f + h) b - b.period * b.turns (f b) := by
  rw [Finsupp.add_apply, Finsupp.add_apply, hu.powers hu0, hf.remainder_eq]
  ring

/-- What the coefficient is after a second step. -/
theorem FoldOf.coef_mul (hu : FoldOf c f u) (hf : Proper f) (hu0 : u ≠ scalar 0)
    (hz : z.Canonical) (hl : u.mul z = .ok l) : l.coef.value = c * z.coef.value *
      (f + z.powers.toFinsupp).prod fun b e => b.turn ^ b.stepTurns (f b) e := by
  set h := z.powers.toFinsupp
  have hsub : ∀ k : Base →₀ ℚ, k.support ⊆
      f.support ∪ (u.powers.toFinsupp + h).support ∪ (f + h).support →
      ∀ m : Base → ℚ → ℚ, (∀ b, m b 0 = 1) → k.prod m =
        ∏ b ∈ f.support ∪ (u.powers.toFinsupp + h).support ∪ (f + h).support, m b (k b) :=
    fun k hk m hm => Finsupp.prod_of_support_subset k hk m fun b _ => hm b
  have hturns : ∀ b : Base, b.turn ^ b.stepTurns (f b) 0 = 1 := by
    intro b
    rw [Base.stepTurns_zero, zpow_zero]
  rw [(foldOf_mul hu.canonical hz hl).coef, hu.coef,
    hsub f (Finset.subset_union_left.trans Finset.subset_union_left) _ Base.contribution_zero,
    hsub _ (Finset.subset_union_right.trans Finset.subset_union_left) _ Base.contribution_zero,
    hsub (f + h) Finset.subset_union_right _ hturns, mul_right_comm c, mul_assoc (c * _),
    ← Finset.prod_mul_distrib]
  refine congrArg _ (Finset.prod_congr rfl fun b _ => ?_)
  rw [hf.contribution_eq, (hu.canonical.proper.add hz.proper).contribution_eq,
    hu.powers_add hf hu0]
  refine Base.turn_zpow_mul_turn_zpow fun hb => ⟨hf b (.inl hb), ?_⟩
  exact (hf.add hz.proper) b (.inl hb)

/-- What the exponents are after a second step. -/
theorem FoldOf.powers_mul (hu : FoldOf c f u) (hf : Proper f) (hu0 : u ≠ scalar 0)
    (hz : z.Canonical) (hl : u.mul z = .ok l) (hl0 : l ≠ scalar 0) (b : Base) :
    l.powers.toFinsupp b = (f + z.powers.toFinsupp) b -
      b.period * b.stepTurns (f b) ((f + z.powers.toFinsupp) b) := by
  rw [(foldOf_mul hu.canonical hz hl).powers hl0,
    (hu.canonical.proper.add hz.proper).remainder_eq, hu.powers_add hf hu0,
    ← Base.turns_add_turns]
  push_cast
  ring

/-! ## Both groupings -/

/-- The exponent of the imaginary unit, which is zero when it does not occur. -/
def imaginaryExponent (x : Surd) : ℚ :=
  ((x.powers.get? .imaginary).map Scalar.value).getD 0

/-- Of three exponents of the imaginary unit in a row, the sum of all is a whole number, or the sums
of the first two and of the last two take out equally many turns. -/
def TurnsAgree (e f g : ℚ) : Prop :=
  (e + f + g).den = 1 ∨ Base.imaginary.turns (e + f) = Base.imaginary.turns (f + g)

instance (e f g : ℚ) : Decidable (TurnsAgree e f g) :=
  inferInstanceAs (Decidable (_ ∨ _))

theorem stepTurns_imaginary_eq_iff (e f g : ℚ) :
    Base.imaginary.stepTurns (e + f) (e + f + g) = Base.imaginary.stepTurns (f + g) (e + f + g) ↔
      TurnsAgree e f g := by
  unfold Base.stepTurns TurnsAgree
  split_ifs with hfolds
  · exact iff_of_true rfl (.inl hfolds)
  · exact (or_iff_right hfolds).symm

/-- The exponents of integers always fold, so only those of the imaginary unit can make a
difference. -/
theorem stepTurns_congr {f g h : Base →₀ ℚ}
    (himag : Base.imaginary.stepTurns (f .imaginary) (h .imaginary) =
      Base.imaginary.stepTurns (g .imaginary) (h .imaginary)) (b : Base) :
    b.stepTurns (f b) (h b) = b.stepTurns (g b) (h b) := by
  cases b with
  | imaginary => exact himag
  | int n => rfl

/-- Two groupings of surds other than zero are the same when they take the same turns out of the
exponents of the imaginary unit. -/
theorem grouping_eq_iff {v r : Surd} (hx : x.Canonical) (hy : y.Canonical) (hz : z.Canonical)
    (hu : x.mul y = .ok u) (hl : u.mul z = .ok l) (hv : y.mul z = .ok v) (hr : v.mul x = .ok r)
    (hl0 : l ≠ scalar 0) (hr0 : r ≠ scalar 0) :
    l = r ↔ TurnsAgree x.imaginaryExponent y.imaginaryExponent z.imaginaryExponent := by
  have hlcan := canonical_mul (canonical_mul hx hy hu) hz hl
  have hrcan := canonical_mul (canonical_mul hy hz hv) hx hr
  have hu0 : u ≠ scalar 0 := fun h =>
    hl0 ((eq_zero_iff_of_mul (canonical_mul hx hy hu) hz hl).2 (.inl h))
  have hv0 : v ≠ scalar 0 := fun h =>
    hr0 ((eq_zero_iff_of_mul (canonical_mul hy hz hv) hx hr).2 (.inl h))
  have hfoldu := foldOf_mul hx hy hu
  have hfoldv := foldOf_mul hy hz hv
  have hfg := hx.proper.add hy.proper
  have hgh := hy.proper.add hz.proper
  have himag : ∀ w : Surd, w.powers.toFinsupp .imaginary = w.imaginaryExponent :=
    fun w => Exponents.toFinsupp_apply _ _
  rw [← stepTurns_imaginary_eq_iff, ← himag, ← himag, ← himag]
  have hlcoef := hfoldu.coef_mul hfg hu0 hz hl
  have hrcoef := hfoldv.coef_mul hgh hv0 hx hr
  have hlpowers := hfoldu.powers_mul hfg hu0 hz hl hl0
  have hrpowers := hfoldv.powers_mul hgh hv0 hx hr hr0
  set f := x.powers.toFinsupp
  set g := y.powers.toFinsupp
  set h := z.powers.toFinsupp
  have hsum : g + h + f = f + g + h := by rw [add_comm, add_assoc]
  rw [hsum] at hrcoef hrpowers
  constructor
  · intro hlr
    have heq := hlpowers .imaginary
    rw [hlr, hrpowers] at heq
    have hmul := mul_left_cancel₀ (Base.period_ne_zero .imaginary) (sub_right_injective heq)
    exact (Int.cast_inj.1 hmul).symm
  · intro himageq
    have hturns := stepTurns_congr (f := f + g) (g := g + h) (h := f + g + h) himageq
    have hprod : (f + g + h).prod (fun b e => b.turn ^ b.stepTurns ((f + g) b) e) =
        (f + g + h).prod fun b e => b.turn ^ b.stepTurns ((g + h) b) e :=
      Finsupp.prod_congr fun b _ => congrArg (b.turn ^ ·) (hturns b)
    have hcoef : l.coef.value = r.coef.value := by
      rw [hlcoef, hrcoef, hprod]
      ring
    refine hlcan.ext hrcan (hlcan.coef_canonical.ext hrcan.coef_canonical hcoef) ?_
    refine hlcan.powers_ext hrcan fun b => ?_
    rw [hlpowers, hrpowers, hturns]

/-- Both groupings of three reachable surds exist. They are the same surd exactly when one of the
three is zero or the turns of the imaginary unit agree. -/
theorem mul_assoc_iff (hx : x.Reachable) (hy : y.Reachable) (hz : z.Reachable) :
    ∃ u l v r, x.mul y = .ok u ∧ u.mul z = .ok l ∧ y.mul z = .ok v ∧ x.mul v = .ok r ∧
      (l = r ↔ (x = scalar 0 ∨ y = scalar 0 ∨ z = scalar 0) ∨
        TurnsAgree x.imaginaryExponent y.imaginaryExponent z.imaginaryExponent) := by
  have hxc := hx.canonical
  have hyc := hy.canonical
  have hzc := hz.canonical
  obtain ⟨u, hu⟩ := exists_mul hxc hyc
  have huc := canonical_mul hxc hyc hu
  obtain ⟨l, hl⟩ := exists_mul huc hzc
  obtain ⟨v, hv⟩ := exists_mul hyc hzc
  have hvc := canonical_mul hyc hzc hv
  obtain ⟨r, hr⟩ := exists_mul hxc hvc
  refine ⟨u, l, v, r, hu, hl, hv, hr, ?_⟩
  have hl0 : l = scalar 0 ↔ x = scalar 0 ∨ y = scalar 0 ∨ z = scalar 0 := by
    rw [eq_zero_iff_of_mul huc hzc hl, eq_zero_iff_of_mul hxc hyc hu, or_assoc]
  have hr0 : r = scalar 0 ↔ x = scalar 0 ∨ y = scalar 0 ∨ z = scalar 0 := by
    rw [eq_zero_iff_of_mul hxc hvc hr, eq_zero_iff_of_mul hyc hzc hv]
  by_cases h0 : x = scalar 0 ∨ y = scalar 0 ∨ z = scalar 0
  · exact iff_of_true ((hl0.2 h0).trans (hr0.2 h0).symm) (.inl h0)
  · rw [mul_eq_mul_swap hxc hvc] at hr
    rw [or_iff_right h0]
    exact grouping_eq_iff hxc hyc hzc hu hl hv hr (mt hl0.1 h0) (mt hr0.1 h0)

/-- Square roots of the imaginary unit beside cube roots of minus two. The imaginary unit gets the
exponents `1` and `5/6` in the first steps, which take out no turn. -/
theorem mul_assoc_iff_of_cube_roots :
    let x := product 1 ((Exponents.single .imaginary (.frac ⟨1, 2⟩)).insert (.int (-2))
      (.frac ⟨2, 3⟩))
    let z := product (.whole 3) (.single .imaginary (.frac ⟨1, 3⟩))
    x.Reachable ∧ z.Reachable ∧ ∃ u l v, x.mul x = .ok u ∧ u.mul z = .ok l ∧ x.mul z = .ok v ∧
      x.mul v = .ok l := by
  intro x z
  have hx : x.Reachable := ⟨[.ofPowers 1 x.powers], by decide, by decide⟩
  have hz : z.Reachable := ⟨[.ofPowers (.whole 3) z.powers], by decide, by decide⟩
  obtain ⟨u, l, v, r, hu, hl, hv, hr, hiff⟩ := mul_assoc_iff hx hx hz
  have heq : l = r := hiff.2 (.inr (by decide +kernel))
  exact ⟨hx, hz, u, l, v, hu, hl, hv, heq ▸ hr⟩

/-- The imaginary unit twice and then its square root : grouped from the left, the product is the
opposite of the square root, and grouped from the right it keeps the exponent `5/2`. -/
theorem mul_not_assoc :
    let x := product 1 (.single .imaginary (.frac ⟨1, 2⟩))
    let l := product (-1) (.single .imaginary (.frac ⟨1, 2⟩))
    let r := product 1 (.single .imaginary (.frac ⟨5, 2⟩))
    imaginary.Reachable ∧ x.Reachable ∧
      (∃ u, imaginary.mul imaginary = .ok u ∧ u.mul x = .ok l) ∧
      (∃ v, imaginary.mul x = .ok v ∧ imaginary.mul v = .ok r) ∧ l ≠ r := by
  intro x l r
  have himag : imaginary.Reachable :=
    ⟨[.power (.whole (-1)) (.frac ⟨1, 2⟩)], by decide, by decide⟩
  have hx : x.Reachable := ⟨[.ofPowers 1 x.powers], by decide, by decide⟩
  refine ⟨himag, hx, ⟨scalar (-1), ?_, ?_⟩,
    ⟨product 1 (.single .imaginary (.frac ⟨3, 2⟩)), ?_, ?_⟩, ?_⟩
  all_goals decide

end Surd

end Surds
