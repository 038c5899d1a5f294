import Surds.Proofs.Power.Exact
import Surds.Proofs.Trust.Scalar

/-!
# Trusted pairs in surds

Beside the pairs that sums, products and powers of scalars trust, an exponent of an integer is
trusted to be in lowest terms after its floor is taken away, in `ofPowersM` and in `ofIntPowerM`.
Every operation on canonical surds and scalars is sound.

The powers of a product are brought in one by one, so the exponents that were kept before a power
is refused are in the trace (`sound_absorbM`, `sound_absorbEachM`). A coefficient that is a fraction
is in it once more for every power, also when the power carries nothing but one or a sign.
-/

namespace Surds

namespace Traced

open Surd

variable {b : Base} {c e v : Scalar} {f g : Fraction} {n k : ℤ} {p q : Exponents} {x y z : Surd}

/-! ## Exponents -/

theorem sound_raiseM (hp : p.Canonical) (he : e.Canonical) :
    (p.raiseM b e : Traced Exponents).Sound (.ok (p.raise b e)) := by
  rw [Exponents.raiseM, Exponents.raise_eq_match]
  cases hget : p.get? b with
  | none => exact sound_pure _
  | some f => exact (sound_addM (hp.get? hget) he).bind_ok (sound_pure _)

theorem sound_foldlM_raiseM :
    ∀ {entries : List (Base × Scalar)} {p : Exponents}, (∀ r ∈ entries, r.2.Canonical) →
      p.Canonical → (entries.foldlM (fun sum r => sum.raiseM r.1 r.2) p : Traced Exponents).Sound
        (.ok (entries.foldl (fun sum r => sum.raise r.1 r.2) p))
  | [], _, _, _ => sound_pure _
  | r :: rest, p, hentries, hp => by
    have hr := hentries r List.mem_cons_self
    exact (sound_raiseM hp hr).bind_ok
      (sound_foldlM_raiseM (fun s hs => hentries s (List.mem_cons_of_mem _ hs)) (hp.raise hr))

theorem sound_addM_exponents (hp : p.Canonical) (hq : q.Canonical) :
    (p.addM q : Traced Exponents).Sound (.ok (p + q)) := by
  rw [Exponents.addM, Exponents.add_eq_foldl]
  exact sound_foldlM_raiseM hq hp

/-! ## The canonical form -/

theorem sound_carriedM : ∀ (b : Base) (e : Scalar),
    (b.carriedM e : Traced Scalar).Sound (b.carried e)
  | .imaginary, .whole _ => sound_pure _
  | .imaginary, .frac _ => sound_pure _
  | .int _, .whole _ => sound_intPowM _ _
  | .int n, .frac r => by
    rw [Base.carriedM, Base.carried_int_frac]
    split_ifs
    · exact sound_intPowM _ _
    · exact sound_intPowM _ _

theorem sound_keptM : ∀ {b : Base} {e : Scalar}, e.Canonical →
    (b.keptM e : Traced (Option Scalar)).Sound (.ok (b.kept e))
  | .imaginary, .whole _, _ => sound_pure _
  | .imaginary, .frac _, _ => sound_pure _
  | .int _, .whole _, _ => sound_pure _
  | .int n, .frac r, he => by
    have hrest := (Fraction.Canonical.fractionalPart he).1.lowestTerms
    rw [Base.keptM, Base.kept_int_frac]
    split_ifs
    · exact sound_pure _
    · exact (sound_trustedM hrest).bind_ok (sound_pure _)

/-- One power is brought in : what it carries comes first, and then what is kept of it. -/
theorem sound_absorbM (hc : c.Canonical) (he : e.Canonical) (kept : Exponents) (b : Base) :
    (absorbM c kept b e : Traced (Scalar × Exponents)).Sound (absorbM c kept b e) := by
  rw [absorbM_eq_bind]
  refine (sound_carriedM b e).bind fun v hv => ?_
  refine (sound_mulM hc (Base.canonical_of_carried hv)).bind_ok ?_
  refine (sound_keptM he).bind_ok ?_
  cases b.kept e with
  | none => exact sound_pure _
  | some r => exact sound_pure _

/-- The coefficient stays canonical while powers are brought in. -/
theorem canonical_of_absorbM {kept : Exponents} {done : Scalar × Exponents} (hc : c.Canonical)
    (h : (absorbM c kept b e : Except Failure (Scalar × Exponents)) = .ok done) :
    done.1.Canonical := by
  rw [absorbM_eq_bind] at h
  obtain ⟨v, hv, hdone⟩ := bind_eq_ok_iff.1 h
  rw [← Except.ok.inj hdone]
  exact Scalar.canonical_mul hc (Base.canonical_of_carried hv)

theorem sound_absorbEachM :
    ∀ {entries : List (Base × Scalar)} {c : Scalar} (kept : Exponents),
      (∀ r ∈ entries, r.2.Canonical) → c.Canonical →
      (absorbEachM c kept entries : Traced (Scalar × Exponents)).Sound (absorbEachM c kept entries)
  | [], _, _, _, _ => sound_pure _
  | r :: _, _, kept, hentries, hc =>
    (sound_absorbM hc (hentries r List.mem_cons_self) kept r.1).bind fun _ hdone =>
      sound_absorbEachM _ (fun s hs => hentries s (List.mem_cons_of_mem _ hs))
        (canonical_of_absorbM hc hdone)

theorem sound_ofPowersM (hc : c.Canonical) (hp : p.Canonical) :
    (ofPowersM c p : Traced Surd).Sound (ofPowers c p) :=
  (sound_absorbEachM ∅ hp hc).bind fun _ _ => sound_pure _

/-- The exponent that was kept of `2` is in the trace, although the power of `3` is refused. -/
example : (ofPowersM 1 (.ofList [(.int 2, .frac ⟨3, 2⟩), (.int 3, .whole 4294967296)]) :
    Traced Surd) = ⟨.error .exponentTooLarge, [⟨1, 2⟩]⟩ :=
  rfl

theorem sound_imaginaryPowerM (k : ℤ) :
    (imaginaryPowerM k : Traced Surd).Sound (imaginaryPower k) :=
  sound_ofPowersM Scalar.canonical_one (Exponents.canonical_single (Scalar.canonical_whole k))

/-- Surds that are not both rational are multiplied through their coefficients and exponents. -/
theorem sound_mulM_powers (hx : x.Canonical) (hy : y.Canonical) : (do
    let powers ← x.powers.addM y.powers
    let c ← x.coef.mulM y.coef
    ofPowersM c powers : Traced Surd).Sound (x.mul y) := by
  have hpx := hx.powers_canonical
  have hpy := hy.powers_canonical
  rw [mul_eq_ofPowers]
  refine (sound_addM_exponents hpx hpy).bind_ok ?_
  refine (sound_mulM hx.coef_canonical hy.coef_canonical).bind_ok ?_
  exact sound_ofPowersM (Scalar.canonical_mul hx.coef_canonical hy.coef_canonical) (hpx.add hpy)

theorem sound_mulM_surd :
    ∀ {x y : Surd}, x.Canonical → y.Canonical → (x.mulM y : Traced Surd).Sound (x.mul y)
  | .scalar a, .scalar b, ha, hb => by
    rw [mul_scalar]
    exact (sound_mulM ha hb).bind_ok (sound_pure _)
  | .scalar _, .imaginary, hx, hy | .scalar _, .root _ _, hx, hy | .scalar _, .product _ _, hx, hy
  | .imaginary, _, hx, hy | .root _ _, _, hx, hy | .product _ _, _, hx, hy =>
    sound_mulM_powers hx hy

/-! ## Powers -/

theorem sound_ofExactRootM (negative : Bool) (r p : ℤ) (q : ℕ) :
    (ofExactRootM negative r p q : Traced Surd).Sound (ofExactRoot negative r p q) := by
  rw [ofExactRootM, ofExactRoot_eq_ite]
  split_ifs
  · exact (sound_intPowM _ _).bind fun _ _ => sound_pure _
  · refine (sound_intPowM _ _).bind fun v hv => ?_
    refine (sound_imaginaryPowerM p).bind fun x hx => ?_
    exact sound_mulM_surd (canonical_imaginaryPower hx) (canonical_of_intPow hv)
  · exact (sound_intPowM _ _).bind fun _ _ => sound_pure _

theorem sound_residualPowersM (n : ℤ) (hg : g.Canonical) :
    (residualPowersM n g : Traced Exponents).Sound (.ok (residualPowers n g)) := by
  refine (sound_trustedM hg.fractionalPart.1.lowestTerms).bind_ok ?_
  rw [residualPowers_eq_ite]
  split_ifs
  · exact sound_pure _
  · exact sound_pure _
  · exact sound_pure _

theorem sound_ofIntPowerM (n : ℤ) (hg : g.Canonical) :
    (ofIntPowerM n g : Traced Surd).Sound (ofIntPower n g) := by
  rw [ofIntPower_eq_bind]
  refine (sound_plain _).bind fun degree _ => ?_
  refine (sound_plain _).bind fun root _ => ?_
  cases root with
  | some r => exact sound_ofExactRootM _ _ _ _
  | none =>
    refine (sound_intPowM _ _).bind fun v hv => ?_
    refine (sound_residualPowersM n hg).bind_ok ?_
    exact sound_ofPowersM (canonical_of_intPow hv) (canonical_residualPowers n hg)

theorem sound_ofFractionPowerM (f : Fraction) (hg : g.Canonical) :
    (ofFractionPowerM f g : Traced Surd).Sound (ofFractionPower f g) := by
  refine (sound_ofIntPowerM _ hg).bind fun x hx => ?_
  refine (sound_ofIntPowerM _ hg.neg).bind fun y hy => ?_
  exact sound_mulM_surd (isPower_ofIntPower hg hx).canonical
    (isPower_ofIntPower hg.neg hy).canonical

theorem sound_powerM : ∀ {b e : Scalar}, b.Canonical → e.Canonical →
    (powerM b e : Traced Surd).Sound (power b e)
  | .whole n, .whole k, _, _ => (sound_intPowM n k).bind fun _ _ => sound_pure _
  | .frac _, .whole k, hb, _ => (sound_powM_fraction hb k).bind fun _ _ => sound_pure _
  | .whole n, .frac _, _, he => sound_ofIntPowerM n he
  | .frac f, .frac _, _, he => sound_ofFractionPowerM f he

end Traced

end Surds
