import Surds.Scalar.Root
import Surds.Surd.Exponents

/-!
# Surds

A `Surd` is an exact number that need not be rational: a scalar, the imaginary unit, an integer
under a root, or a scalar times a product of powers. `ofPowers` brings a scalar and any exponents
into the canonical form. Each power is split into the number that it contributes to the
coefficient (`Base.carried`) and the power that remains beside it (`Base.kept`): whole powers of
integers are carried completely, a fractional exponent of an integer keeps its part between zero
and one, and the powers of the imaginary unit go round with period four. Fractional powers of the
imaginary unit are kept as they are. The powers are brought in one after the other (`absorbM`), and
in the end the coefficient has all that they carry and beside it stands what is kept of them
(`ofPowers_eq_bind`).

Every surd is a coefficient times powers (`coef`, `powers`), and products and negations work on
these. `collapse` builds the simplest surd with a given coefficient and powers, and loses neither
(`coef_collapse`, `powers_collapse`).
-/

namespace Surds

/-! ## Splitting an exponent -/

namespace Fraction

/-- The largest integer that does not exceed a fraction with positive denominator. -/
def floor (f : Fraction) : Int :=
  f.num / f.den

/-- What a fraction exceeds its floor by. -/
def fractionalPart (f : Fraction) : Fraction :=
  ⟨f.num % f.den, f.den⟩

end Fraction

namespace Base

section

variable {m : Type → Type} [Monad m] [Trusting m]

/-- The number that a power contributes to the coefficient. -/
def carriedM [MonadLiftT (Except Failure) m] : Base → Scalar → m Scalar
  | imaginary, .whole k => return if k % 4 = 2 ∨ k % 4 = 3 then -1 else 1
  | imaginary, .frac _ => return 1
  | int n, .whole k => intPowM n k
  | int n, .frac r => if n = 0 then intPowM 0 r.num else intPowM n r.floor

/-- The exponent that remains when the number `carried` is taken out of a power. What a fraction
exceeds its floor by is trusted to share no factor with the denominator. -/
def keptM : Base → Scalar → m (Option Scalar)
  | imaginary, .whole k => return if k % 2 = 1 then some 1 else none
  | imaginary, .frac r => return some (.frac r)
  | int _, .whole _ => return none
  | int n, .frac r =>
    if n = 0 ∨ n = 1 then return none else return some (.frac (← r.fractionalPart.trustedM))

end

/-- The number that a power contributes to the coefficient. -/
def carried (b : Base) (e : Scalar) : Except Failure Scalar :=
  b.carriedM e

/-- The exponent that remains when the number `carried` is taken out of a power. -/
def kept (b : Base) (e : Scalar) : Option Scalar :=
  Id.run (b.keptM e)

variable (n k : Int) (r : Fraction)

theorem carried_imaginary_whole :
    imaginary.carried (.whole k) = .ok (if k % 4 = 2 ∨ k % 4 = 3 then -1 else 1) :=
  rfl

theorem carried_imaginary_frac : imaginary.carried (.frac r) = .ok 1 :=
  rfl

theorem carried_int_whole : (int n).carried (.whole k) = intPow n k :=
  rfl

theorem carried_int_frac : (int n).carried (.frac r) =
    if n = 0 then intPow 0 r.num else intPow n r.floor :=
  rfl

theorem kept_imaginary_whole :
    imaginary.kept (.whole k) = if k % 2 = 1 then some 1 else none :=
  rfl

theorem kept_imaginary_frac : imaginary.kept (.frac r) = some (.frac r) :=
  rfl

theorem kept_int_whole : (int n).kept (.whole k) = none :=
  rfl

theorem kept_int_frac : (int n).kept (.frac r) =
    if n = 0 ∨ n = 1 then none else some (.frac r.fractionalPart) :=
  rfl

/-- Outside of the trace it makes no difference that an exponent is trusted. -/
theorem keptM_eq_ok : ∀ (b : Base) (e : Scalar),
    (b.keptM e : Except Failure (Option Scalar)) = .ok (b.kept e)
  | imaginary, .whole _ => rfl
  | imaginary, .frac _ => rfl
  | int _, .whole _ => rfl
  | int n, .frac r => by
    rw [kept_int_frac, keptM]
    split <;> rfl

end Base

/-! ## The canonical form -/

/-- A number of the form that an exact power takes. -/
inductive Surd
  /-- A rational number. -/
  | scalar (a : Scalar)
  /-- The imaginary unit. -/
  | imaginary
  /-- An integer to an exponent between zero and one. -/
  | root (base : Int) (exponent : Fraction)
  /-- A coefficient times a product of powers. -/
  | product (coef : Scalar) (powers : Exponents)
  deriving DecidableEq

namespace Surd

/-- The surd that a single power with coefficient one is, if it has a form of its own. -/
def ofPower? : Base → Scalar → Option Surd
  | .imaginary, e => if e = 1 then some imaginary else none
  | .int n, .frac r => some (root n r)
  | .int _, .whole _ => none

/-- The simplest form of a non-zero coefficient times powers that are kept. -/
def collapse (coef : Scalar) (powers : Exponents) : Surd :=
  match powers.entries with
  | [] => scalar coef
  | [(b, e)] =>
    if coef = 1 then (ofPower? b e).getD (product coef powers) else product coef powers
  | _ :: _ :: _ => product coef powers

section

variable {m : Type → Type} [Monad m] [Trusting m] [MonadLiftT (Except Failure) m]

/-- Bring a power into a product: what it carries is multiplied into the coefficient, and what
remains is kept beside it. -/
def absorbM (c : Scalar) (kept : Exponents) (b : Base) (e : Scalar) : m (Scalar × Exponents) := do
  let v ← b.carriedM e
  let c ← c.mulM v
  match ← b.keptM e with
  | some r => return (c, kept.insert b r)
  | none => return (c, kept)

/-- Bring the powers of a list into a product, in their order. -/
def absorbEachM (c : Scalar) (kept : Exponents) :
    List (Base × Scalar) → m (Scalar × Exponents)
  | [] => return (c, kept)
  | (b, e) :: rest => do
    let (c, kept) ← absorbM c kept b e
    absorbEachM c kept rest

/-- The canonical form of a coefficient times a product of powers. -/
def ofPowersM (coef : Scalar) (powers : Exponents) : m Surd := do
  let (c, kept) ← absorbEachM coef ∅ powers.entries
  return if c = 0 then scalar 0 else collapse c kept

/-- The imaginary unit raised to an integer exponent. -/
def imaginaryPowerM (k : Int) : m Surd :=
  ofPowersM 1 (.single .imaginary (.whole k))

end

/-- The canonical form of a coefficient times a product of powers. -/
def ofPowers (coef : Scalar) (powers : Exponents) : Except Failure Surd :=
  ofPowersM coef powers

/-- The imaginary unit raised to an integer exponent. -/
def imaginaryPower (k : Int) : Except Failure Surd :=
  imaginaryPowerM k

theorem imaginaryPower_eq_ofPowers (k : Int) :
    imaginaryPower k = ofPowers 1 (.single .imaginary (.whole k)) :=
  rfl

/-- A coefficient after the numbers carried by a list of powers, in their order. -/
def carriedInto (coef : Scalar) (entries : List (Base × Scalar)) : Except Failure Scalar :=
  entries.foldlM (fun c p => do return c * (← p.1.carried p.2)) coef

theorem absorbM_eq_bind (c : Scalar) (kept : Exponents) (b : Base) (e : Scalar) :
    (absorbM c kept b e : Except Failure (Scalar × Exponents)) =
      b.carried e >>= fun v => .ok (c * v, ((b.kept e).map (kept.insert b)).getD kept) := by
  rw [absorbM, Base.keptM_eq_ok, Base.carried]
  cases (b.carriedM e : Except Failure Scalar) with
  | error w => rfl
  | ok v =>
    show (c.mulM v : Except Failure Scalar) >>= _ = _
    rw [Scalar.mulM_eq_ok]
    cases b.kept e <;> rfl

/-- An exponent that is kept of a later base comes to stand at the end. -/
theorem entries_getD_map_insert {kept : Exponents} {b : Base} (h : ∀ p ∈ kept.entries, p.1 < b) :
    ∀ o : Option Scalar, ((o.map (kept.insert b)).getD kept).entries =
      kept.entries ++ (o.map (b, ·)).toList
  | none => (List.append_nil _).symm
  | some e => insertEntry_of_forall_lt e h

/-- Powers whose bases come in order, and after those that are kept already, are brought in: `all`
is what is kept in the end. -/
theorem absorbEachM_eq_bind :
    ∀ {entries : List (Base × Scalar)} {c : Scalar} {kept all : Exponents},
      entries.Pairwise (fun p q => p.1 < q.1) → (∀ p ∈ kept.entries, ∀ q ∈ entries, p.1 < q.1) →
      all.entries = kept.entries ++ entries.filterMap (fun p => (p.1.kept p.2).map (p.1, ·)) →
      (absorbEachM c kept entries : Except Failure (Scalar × Exponents)) =
        carriedInto c entries >>= fun v => .ok (v, all)
  | [], c, kept, all, _, _, hall => by
    obtain rfl : all = kept := Exponents.ext (hall.trans (List.append_nil _))
    rfl
  | (b, e) :: rest, c, kept, all, hsorted, hbefore, hall => by
    obtain ⟨hb, hrest⟩ := List.pairwise_cons.1 hsorted
    rw [absorbEachM, absorbM_eq_bind, carriedInto, List.foldlM_cons]
    cases b.carried e with
    | error w => rfl
    | ok v =>
      have hkept := entries_getD_map_insert (fun p hp => hbefore p hp _ List.mem_cons_self)
        (b.kept e)
      refine absorbEachM_eq_bind hrest (fun p hp q hq => ?_) ?_
      · rw [hkept] at hp
        rcases List.mem_append.1 hp with hp | hp
        · exact hbefore p hp q (List.mem_cons_of_mem _ hq)
        · obtain ⟨r, -, rfl⟩ := Option.map_eq_some_iff.1 (Option.mem_toList.1 hp)
          exact hb q hq
      · rw [hkept, hall, List.append_assoc]
        cases h : b.kept e <;> simp [h]

/-- The coefficient has all that the powers carry, and beside it stands what is kept of them. -/
theorem ofPowers_eq_bind (coef : Scalar) (powers : Exponents) : ofPowers coef powers =
    carriedInto coef powers.entries >>= fun c =>
      .ok (if c = 0 then scalar 0 else collapse c (powers.filterMap Base.kept)) := by
  rw [ofPowers, ofPowersM, absorbEachM_eq_bind powers.sorted (fun _ h => absurd h List.not_mem_nil)
    (show (powers.filterMap Base.kept).entries = [] ++ _ from rfl)]
  cases carriedInto coef powers.entries <;> rfl

/-- Without powers there is only the coefficient. -/
theorem ofPowers_empty (c : Scalar) : ofPowers c ∅ = .ok (scalar c) := by
  rw [ofPowers_eq_bind]
  show Except.ok (if c = 0 then scalar 0 else scalar c) = _
  split
  · rename_i h
    rw [h]
  · rfl

/-! ## Coefficient and powers -/

/-- The scalar in front of the powers. -/
def coef : Surd → Scalar
  | scalar a => a
  | imaginary => 1
  | root _ _ => 1
  | product c _ => c

/-- The powers beside the coefficient. -/
def powers : Surd → Exponents
  | scalar _ => ∅
  | imaginary => .single .imaginary 1
  | root n r => .single (.int n) (.frac r)
  | product _ p => p

/-- The form that a single power takes has coefficient one and that power. -/
theorem coef_powers_of_ofPower? {b : Base} {e : Scalar} {x : Surd} (h : ofPower? b e = some x) :
    x.coef = 1 ∧ x.powers = .single b e := by
  cases b with
  | imaginary =>
    simp only [ofPower?, Option.ite_none_right_eq_some, Option.some.injEq] at h
    obtain ⟨rfl, rfl⟩ := h
    exact ⟨rfl, rfl⟩
  | int n =>
    cases e with
    | whole k => simp [ofPower?] at h
    | frac r =>
      simp only [ofPower?, Option.some.injEq] at h
      subst h
      exact ⟨rfl, rfl⟩

/-- Collapsing loses neither the coefficient nor the powers. -/
theorem coef_powers_collapse (c : Scalar) (p : Exponents) :
    (collapse c p).coef = c ∧ (collapse c p).powers = p := by
  unfold collapse
  split
  · rename_i h
    exact ⟨rfl, Exponents.ext h.symm⟩
  · rename_i b e h
    split
    · rename_i hc
      cases hx : ofPower? b e with
      | none => exact ⟨rfl, rfl⟩
      | some x =>
        obtain ⟨hcoef, hpowers⟩ := coef_powers_of_ofPower? hx
        exact ⟨hcoef.trans hc.symm, hpowers.trans (Exponents.ext h.symm)⟩
    · exact ⟨rfl, rfl⟩
  · exact ⟨rfl, rfl⟩

@[simp] theorem coef_collapse (c : Scalar) (p : Exponents) : (collapse c p).coef = c :=
  (coef_powers_collapse c p).1

@[simp] theorem powers_collapse (c : Scalar) (p : Exponents) : (collapse c p).powers = p :=
  (coef_powers_collapse c p).2

/-! ## Operations -/

/-- The product: coefficients are multiplied, exponents of the same base are added. The product of
two rational numbers is that of scalars. -/
def mulM {m : Type → Type} [Monad m] [Trusting m] [MonadLiftT (Except Failure) m] (x y : Surd) :
    m Surd :=
  match x, y with
  | scalar a, scalar b => return scalar (← a.mulM b)
  | x, y => do
    let powers ← x.powers.addM y.powers
    let c ← x.coef.mulM y.coef
    ofPowersM c powers

/-- The product of two surds. -/
def mul (x y : Surd) : Except Failure Surd :=
  x.mulM y

theorem mul_scalar (a b : Scalar) : (scalar a).mul (scalar b) = .ok (scalar (a * b)) := by
  show (a.mulM b : Except Failure Scalar) >>= _ = _
  rw [Scalar.mulM_eq_ok]
  rfl

/-- Also the product of two rational numbers is that of coefficients and exponents. -/
theorem mul_eq_ofPowers (x y : Surd) :
    x.mul y = ofPowers (x.coef * y.coef) (x.powers + y.powers) := by
  have hgeneral : (do
      let powers ← x.powers.addM y.powers
      let c ← x.coef.mulM y.coef
      ofPowersM c powers : Except Failure Surd) =
        ofPowers (x.coef * y.coef) (x.powers + y.powers) := by
    rw [Exponents.addM_eq_ok, Scalar.mulM_eq_ok]
    rfl
  cases x with
  | scalar a =>
    cases y with
    | scalar b => exact (mul_scalar a b).trans (ofPowers_empty (a * b)).symm
    | _ => exact hgeneral
  | _ => exact hgeneral

/-- The surd of opposite sign. -/
def neg (x : Surd) : Surd :=
  collapse (-x.coef) x.powers

instance : Neg Surd := ⟨neg⟩

@[simp] theorem coef_neg (x : Surd) : (-x).coef = -x.coef :=
  coef_collapse _ _

@[simp] theorem powers_neg (x : Surd) : (-x).powers = x.powers :=
  powers_collapse _ _

end Surd

end Surds
