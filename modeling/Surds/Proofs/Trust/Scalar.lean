import Mathlib.Data.Nat.GCD.Basic
import Surds.Proofs.Scalar.Root
import Surds.Scalar.Text

/-!
# Trusted pairs

Apart from a change of sign, every way to make a fraction ends in a pair that is trusted to be in
lowest terms : nothing is divided and nothing is checked. A `Traced` computation keeps, beside its result, all the pairs that
it trusts, those before a failure too. The operations are programs for all monads that can note a
pair, and `Traced` is one of them : the traced operation is not a second one. That `t.Sound x` says
that the traced computation `t` has the result `x` of the plain operation and that all the pairs are
in lowest terms.

Every operation on canonical scalars is sound : a pair that is divided by its greatest common
divisor has none left, powers and exact roots of coprime numbers are coprime, and turning a fraction
over leaves it in lowest terms.
-/

namespace Surds

/-! ## Lowest terms -/

namespace Fraction

variable {f : Fraction} {n : ℤ} {d : ℕ}

/-- A pair with a positive denominator that shares no factor with the numerator. -/
def LowestTerms (f : Fraction) : Prop :=
  0 < f.den ∧ f.num.natAbs.Coprime f.den

instance (f : Fraction) : Decidable f.LowestTerms :=
  inferInstanceAs (Decidable (_ ∧ _))

theorem Canonical.lowestTerms (h : f.Canonical) : f.LowestTerms :=
  ⟨h.den_pos, h.2⟩

theorem natAbs_div_gcd (n : ℤ) (d : ℕ) :
    (n / (Nat.gcd n.natAbs d : ℕ)).natAbs = n.natAbs / Nat.gcd n.natAbs d := by
  rw [Int.natAbs_ediv_of_dvd (Int.natCast_dvd.2 (Nat.gcd_dvd_left _ _)), Int.natAbs_natCast]

/-- Dividing by the greatest common divisor leaves a pair in lowest terms. -/
theorem lowestTerms_div_gcd (n : ℤ) (hd : 0 < d) :
    LowestTerms ⟨n / (Nat.gcd n.natAbs d : ℕ), d / Nat.gcd n.natAbs d⟩ := by
  have hgcd : 0 < Nat.gcd n.natAbs d := Nat.gcd_pos_of_pos_right _ hd
  refine ⟨Nat.div_pos (Nat.gcd_le_right _ hd) hgcd, ?_⟩
  rw [natAbs_div_gcd]
  exact Nat.coprime_div_gcd_div_gcd hgcd

/-- A fraction that is not changed by reducing it is canonical. -/
theorem isCanonical_iff : f.isCanonical ↔ f.Canonical := by
  simp only [isCanonical, decide_eq_true_eq]
  constructor
  · rintro ⟨hden, hone, hnum, hself⟩
    rw [hself] at hone
    have hlowest := lowestTerms_div_gcd f.num (Nat.pos_of_ne_zero hden)
    rw [hnum, hself] at hlowest
    exact ⟨by omega, hlowest.2⟩
  · rintro ⟨hden, hgcd⟩
    rw [hgcd, Nat.cast_one, Int.ediv_one, Nat.div_one]
    exact ⟨by omega, by omega, rfl, rfl⟩

/-- Turning a pair over leaves it in lowest terms. -/
theorem LowestTerms.inverse (h : f.LowestTerms) (h0 : f.num ≠ 0) :
    LowestTerms ⟨f.num.sign * f.den, f.num.natAbs⟩ := by
  refine ⟨Int.natAbs_pos.2 h0, ?_⟩
  rw [Int.natAbs_mul, Int.natAbs_sign_of_ne_zero h0, one_mul, Int.natAbs_natCast]
  exact h.2.symm

end Fraction

/-! ## Traced computations -/

/-- A computation with the pairs that it takes to be in lowest terms, in their order. -/
structure Traced (α : Type) where
  result : Except Failure α
  pairs : List Fraction

namespace Traced

/-- A computation that trusts no pair. -/
def plain {α : Type} (x : Except Failure α) : Traced α :=
  ⟨x, []⟩

/-- A failure ends the computation, and with it the trace. -/
def andThen {α β : Type} (t : Traced α) (f : α → Traced β) : Traced β :=
  match t.result with
  | .error w => ⟨.error w, t.pairs⟩
  | .ok a => ⟨(f a).result, t.pairs ++ (f a).pairs⟩

instance : Monad Traced where
  pure a := plain (.ok a)
  bind := andThen

instance : MonadLift (Except Failure) Traced := ⟨plain⟩

instance : Trusting Traced := ⟨fun f => ⟨.ok (), [f]⟩⟩

/-- The traced computation has the result `x`, and all pairs that it trusts are in lowest terms. -/
structure Sound {α : Type} (t : Traced α) (x : Except Failure α) : Prop where
  result : t.result = x
  pairs : ∀ f ∈ t.pairs, f.LowestTerms

section

variable {α β : Type} {t : Traced α} {x : Except Failure α} {y : Except Failure β} {a : α}
  {f : α → Traced β} {g : α → Except Failure β}

theorem sound_plain (x : Except Failure α) : (plain x).Sound x :=
  ⟨rfl, fun _ hf => absurd hf List.not_mem_nil⟩

theorem sound_pure (a : α) : (pure a : Traced α).Sound (.ok a) :=
  sound_plain _

theorem sound_fail (w : Failure) : (failM w : Traced α).Sound (.error w) :=
  sound_plain _

/-- Steps that are sound make a sound computation. The second has to be so for the result of the
first only. -/
theorem Sound.bind (ht : t.Sound x) (hf : ∀ a, x = .ok a → (f a).Sound (g a)) :
    (t >>= f).Sound (x >>= g) := by
  obtain ⟨result, pairs⟩ := t
  obtain ⟨rfl, hpairs⟩ := ht
  cases result with
  | error w => exact ⟨rfl, hpairs⟩
  | ok a =>
    obtain ⟨hresult, hmore⟩ := hf a rfl
    refine ⟨hresult, fun p hp => ?_⟩
    rcases List.mem_append.1 hp with hp | hp
    · exact hpairs p hp
    · exact hmore p hp

/-- A step that cannot fail. -/
theorem Sound.bind_ok (ht : t.Sound (.ok a)) (hf : (f a).Sound y) : (t >>= f).Sound y :=
  ht.bind (g := fun _ => y) fun b hb => by
    rw [← Except.ok.inj hb]
    exact hf

end

/-! ## Construction and arithmetic -/

variable {f : Fraction} {a b : Scalar} {n : ℤ} {d : ℕ}

theorem sound_trustedM (hf : f.LowestTerms) : (f.trustedM : Traced Fraction).Sound (.ok f) :=
  ⟨rfl, fun g hg => by rwa [List.mem_singleton.1 hg]⟩

theorem sound_ofReducedM (h : Fraction.LowestTerms ⟨n, d⟩) :
    (Scalar.ofReducedM n d : Traced Scalar).Sound (.ok (.ofReduced n d)) :=
  (sound_trustedM h).bind_ok (sound_pure _)

theorem sound_reduceM (n : ℤ) (hd : 0 < d) :
    (Scalar.reduceM n d : Traced Scalar).Sound (.ok (.reduce n d)) :=
  sound_ofReducedM (Fraction.lowestTerms_div_gcd n hd)

theorem sound_quotientM (n d : ℤ) :
    (Scalar.quotientM n d : Traced Scalar).Sound (Scalar.quotient? n d) := by
  rw [Scalar.quotientM, Scalar.quotient?_eq_ite]
  split_ifs with h0
  · exact sound_fail _
  · exact sound_reduceM _ (Int.natAbs_pos.2 h0)
  · exact sound_reduceM _ (Int.natAbs_pos.2 h0)

theorem sound_addM :
    ∀ {a b : Scalar}, a.Canonical → b.Canonical → (a.addM b : Traced Scalar).Sound (.ok (a + b))
  | .whole _, .whole _, _, _ => sound_pure _
  | .whole _, .frac _, ha, hb => sound_reduceM _ (Nat.mul_pos ha.den_pos hb.den_pos)
  | .frac _, _, ha, hb => sound_reduceM _ (Nat.mul_pos ha.den_pos hb.den_pos)

theorem sound_mulM :
    ∀ {a b : Scalar}, a.Canonical → b.Canonical → (a.mulM b : Traced Scalar).Sound (.ok (a * b))
  | .whole _, .whole _, _, _ => sound_pure _
  | .whole _, .frac _, ha, hb => sound_reduceM _ (Nat.mul_pos ha.den_pos hb.den_pos)
  | .frac _, _, ha, hb => sound_reduceM _ (Nat.mul_pos ha.den_pos hb.den_pos)

theorem sound_inverseM (hf : f.Canonical) : (f.inverseM : Traced Scalar).Sound (.ok f.inverse) :=
  sound_ofReducedM (hf.lowestTerms.inverse hf.num_ne_zero)

/-! ## Whole powers -/

theorem sound_intPowM (n k : ℤ) : (intPowM n k : Traced Scalar).Sound (intPow n k) := by
  rw [intPowM, intPow_eq_ite]
  split_ifs with hk hn hneg hunit hodd hneg
  · exact sound_pure _
  · exact sound_fail _
  · exact sound_pure _
  · exact sound_pure _
  · exact sound_pure _
  · exact (sound_plain _).bind fun e _ => sound_quotientM _ _
  · exact (sound_plain _).bind fun e _ => sound_pure _

theorem sound_powM_fraction (hf : f.Canonical) (k : ℤ) :
    (f.powM k : Traced Scalar).Sound (f.pow k) := by
  rcases eq_or_ne k 0 with rfl | hk
  · exact sound_pure _
  rw [Fraction.powM, Fraction.pow_eq_ite, if_neg hk, if_neg hk]
  refine (sound_plain _).bind fun e he => ?_
  obtain ⟨-, rfl⟩ := withinLimit_eq_ok_iff.1 he
  have hpow : Fraction.Canonical ⟨f.num.pow k.natAbs, f.den.pow k.natAbs⟩ :=
    hf.pow (Int.natAbs_ne_zero.2 hk)
  split_ifs
  · exact sound_inverseM hpow
  · exact (sound_trustedM hpow.lowestTerms).bind_ok (sound_pure _)

theorem sound_powM :
    ∀ {a : Scalar}, a.Canonical → ∀ k : ℤ, (a.powM k : Traced Scalar).Sound (a.pow k)
  | .whole n, _, k => sound_intPowM n k
  | .frac _, hf, k => sound_powM_fraction hf k

/-! ## Exact roots -/

theorem sound_rootM_fraction (hf : f.Canonical) (n : ℕ) :
    (f.rootM n : Traced (Option Fraction)).Sound (f.root? n) := by
  refine (sound_plain _).bind fun above habove => ?_
  cases above with
  | none => exact sound_pure _
  | some num =>
    cases hden : exactRoot? n f.den with
    | none => exact sound_pure _
    | some den =>
      have hroot : f.root? n = .ok (some ⟨num, den⟩) := by
        rw [Fraction.root?_eq_bind, show intRoot? n f.num = _ from habove, hden]
        rfl
      exact (sound_trustedM (hf.of_root? hroot).lowestTerms).bind_ok (sound_pure _)

theorem sound_rootM : ∀ {a : Scalar}, a.Canonical → ∀ n : ℕ,
    (a.rootM n : Traced (Option Scalar)).Sound (a.root? n)
  | .whole _, _, _ => (sound_plain _).bind fun _ _ => sound_pure _
  | .frac _, hf, n => (sound_rootM_fraction hf n).bind fun _ _ => sound_pure _

/-! ## Reading -/

theorem sound_readQuotientM (above below : List Char) :
    (Scalar.readQuotientM above below : Traced Scalar).Sound (Scalar.readQuotient above below) := by
  rw [Scalar.readQuotientM, Scalar.readQuotient_eq_match]
  cases Numeral.read? (Text.trim above) with
  | none => exact sound_fail _
  | some n =>
    cases Numeral.read? (Text.trim below) with
    | none => exact sound_fail _
    | some d => exact sound_quotientM n d

theorem sound_readM (cs : List Char) :
    (Scalar.readM cs : Traced Scalar).Sound (Scalar.read cs) := by
  rw [Scalar.readM, Scalar.read_eq_match]
  cases Text.cut? '/' (Text.trim cs) with
  | none => exact sound_plain _
  | some parts => exact sound_readQuotientM parts.1 parts.2

end Traced

end Surds
