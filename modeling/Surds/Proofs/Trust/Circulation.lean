import Surds.Proofs.Scalar.Reading
import Surds.Proofs.Surd.Parts
import Surds.Proofs.Trust.Surd

/-!
# Numbers in circulation

Numbers are read from text, made from integers, and calculated with, and surds are made of numbers
and taken apart into numbers again. A `Call` is one such operation with the values that it is
applied to. `Run calls made` says that `calls` can be performed one after the other, each on values
that were made before it, and that they make the values `made`.

In every run all numbers are canonical, those inside of surds too, and every pair that is trusted
to be in lowest terms, in any of the calls and however deep inside of it, is in lowest terms
(`lowestTerms_of_run`). A call on canonical values trusts no other pairs (`sound_traced`) and makes
a canonical value (`makesCanonical_perform`), so this goes on through the run (`canonical_of_run`).
All canonical values are in some run (`exists_run_iff_canonical`), so its surds are those that lists
of operations on surds make (`exists_run_iff_reachable`).
-/

namespace Surds

open Surd

/-! ## Values -/

/-- A number or a surd. -/
inductive Value
  | scalar (a : Scalar)
  | surd (x : Surd)
  deriving DecidableEq

namespace Value

/-- The numbers that are present in a value : it is one, or it has a coefficient and exponents. -/
def scalars : Value → List Scalar
  | scalar a => [a]
  | surd x => x.coef :: x.powers.entries.map Prod.snd

def Canonical : Value → Prop
  | scalar a => a.Canonical
  | surd x => x.Canonical

theorem Canonical.of_mem_scalars :
    ∀ {v : Value}, v.Canonical → ∀ a ∈ v.scalars, a.Canonical
  | scalar _, h, a, ha => by rwa [List.mem_singleton.1 ha]
  | surd x, h, a, ha => by
    rcases List.mem_cons.1 ha with rfl | ha
    · exact Surd.Canonical.coef_canonical h
    · obtain ⟨r, hr, rfl⟩ := List.mem_map.1 ha
      exact Surd.Canonical.powers_canonical h r hr

end Value

/-! ## Calls -/

/-- An operation with the values that it is applied to. -/
inductive Call
  /-- The number that a text writes. -/
  | read (text : List Char)
  /-- A whole number. -/
  | whole (n : ℤ)
  /-- The quotient of two integers. -/
  | quotient (n d : ℤ)
  | add (a b : Scalar)
  | mul (a b : Scalar)
  | neg (a : Scalar)
  /-- A fraction turned over. -/
  | inverse (f : Fraction)
  /-- A whole power. -/
  | pow (a : Scalar) (k : ℤ)
  /-- The exact root, where there is one. -/
  | root (n : ℕ) (a : Scalar)
  | power (b e : Scalar)
  /-- A number as a surd. -/
  | ofScalar (a : Scalar)
  | imaginaryPower (k : ℤ)
  | ofPowers (c : Scalar) (p : Exponents)
  | surdMul (x y : Surd)
  | surdNeg (x : Surd)
  | coef (x : Surd)
  /-- The exponent of a base, where it occurs. -/
  | exponent (x : Surd) (b : Base)

namespace Call

/-- The values that have to be there before the call. -/
def operands : Call → List Value
  | read _ | whole _ | quotient _ _ | imaginaryPower _ => []
  | add a b | mul a b | power a b => [.scalar a, .scalar b]
  | neg a | pow a _ | root _ a | ofScalar a => [.scalar a]
  | inverse f => [.scalar (.frac f)]
  | ofPowers c p => .scalar c :: p.entries.map fun r => .scalar r.2
  | surdMul x y => [.surd x, .surd y]
  | surdNeg x | coef x | exponent x _ => [.surd x]

/-- The values that the call is applied to are canonical. -/
def Canonical : Call → Prop
  | read _ | whole _ | quotient _ _ | imaginaryPower _ => True
  | add a b | mul a b | power a b => a.Canonical ∧ b.Canonical
  | neg a | pow a _ | root _ a | ofScalar a => a.Canonical
  | inverse f => f.Canonical
  | ofPowers c p => c.Canonical ∧ p.Canonical
  | surdMul x y => x.Canonical ∧ y.Canonical
  | surdNeg x | coef x | exponent x _ => x.Canonical

section

variable {m : Type → Type} [Monad m] [Trusting m] [MonadLiftT (Except Failure) m]

/-- What a call makes, if it makes something, in any monad. -/
def performM : Call → m (Option Value)
  | read text => return some (.scalar (← Scalar.readM text))
  | whole n => return some (.scalar (.whole n))
  | quotient n d => return some (.scalar (← Scalar.quotientM n d))
  | add a b => return some (.scalar (← a.addM b))
  | mul a b => return some (.scalar (← a.mulM b))
  | neg a => return some (.scalar (-a))
  | inverse f => return some (.scalar (← f.inverseM))
  | pow a k => return some (.scalar (← a.powM k))
  | root n a => return (← a.rootM n).map .scalar
  | power b e => return some (.surd (← powerM b e))
  | ofScalar a => return some (.surd (.scalar a))
  | imaginaryPower k => return some (.surd (← imaginaryPowerM k))
  | ofPowers c p => return some (.surd (← ofPowersM c p))
  | surdMul x y => return some (.surd (← x.mulM y))
  | surdNeg x => return some (.surd (-x))
  | coef x => return some (.scalar x.coef)
  | exponent x b => return (x.powers.get? b).map .scalar

end

/-- What a call makes, if it makes something. -/
def perform (c : Call) : Except Failure (Option Value) :=
  c.performM

/-- The call with the pairs that it trusts. -/
def traced (c : Call) : Traced (Option Value) :=
  c.performM

theorem perform_add (a b : Scalar) : (add a b).perform = .ok (some (.scalar (a + b))) := by
  rw [perform, performM, Scalar.addM_eq_ok]
  rfl

theorem perform_mul (a b : Scalar) : (mul a b).perform = .ok (some (.scalar (a * b))) := by
  rw [perform, performM, Scalar.mulM_eq_ok]
  rfl

/-- The values that a call adds. -/
def results (c : Call) : List Value :=
  (c.perform.toOption.join).toList

end Call

/-- The calls that were performed and the values that they made, the last of them first. A call is
applied to values that were made before it. -/
inductive Run : List Call → List Value → Prop
  | start : Run [] []
  | call {calls : List Call} {made : List Value} {c : Call} (h : Run calls made)
      (operands : ∀ v ∈ c.operands, v ∈ made) : Run (c :: calls) (c.results ++ made)

variable {c : Call} {calls : List Call} {made : List Value} {v : Value}

/-! ## One call -/

theorem canonical_of_operands (h : ∀ v ∈ c.operands, v.Canonical) : c.Canonical := by
  cases c with
  | read | whole | quotient | imaginaryPower => trivial
  | add a b | mul a b | power a b =>
    exact ⟨h (.scalar a) List.mem_cons_self,
      h (.scalar b) (List.mem_cons_of_mem _ List.mem_cons_self)⟩
  | neg a | pow a | root _ a | ofScalar a => exact h (.scalar a) List.mem_cons_self
  | inverse f => exact h (.scalar (.frac f)) List.mem_cons_self
  | ofPowers a p =>
    refine ⟨h (.scalar a) List.mem_cons_self, fun r hr => ?_⟩
    exact h (.scalar r.2) (List.mem_cons_of_mem _ (List.mem_map.2 ⟨r, hr, rfl⟩))
  | surdMul x y =>
    exact ⟨h (.surd x) List.mem_cons_self,
      h (.surd y) (List.mem_cons_of_mem _ List.mem_cons_self)⟩
  | surdNeg x | coef x | exponent x => exact h (.surd x) List.mem_cons_self

/-- A call on canonical values trusts only pairs in lowest terms. -/
theorem sound_traced (h : c.Canonical) : c.traced.Sound c.perform := by
  cases c with
  | read text => exact (Traced.sound_readM text).bind fun _ _ => Traced.sound_pure _
  | quotient n d => exact (Traced.sound_quotientM n d).bind fun _ _ => Traced.sound_pure _
  | add a b =>
    rw [Call.perform_add]
    exact (Traced.sound_addM h.1 h.2).bind_ok (Traced.sound_pure _)
  | mul a b =>
    rw [Call.perform_mul]
    exact (Traced.sound_mulM h.1 h.2).bind_ok (Traced.sound_pure _)
  | inverse => exact (Traced.sound_inverseM h).bind_ok (Traced.sound_pure _)
  | pow a k => exact (Traced.sound_powM h k).bind fun _ _ => Traced.sound_pure _
  | root n => exact (Traced.sound_rootM h n).bind fun _ _ => Traced.sound_pure _
  | power => exact (Traced.sound_powerM h.1 h.2).bind fun _ _ => Traced.sound_pure _
  | imaginaryPower k =>
    exact (Traced.sound_imaginaryPowerM k).bind fun _ _ => Traced.sound_pure _
  | ofPowers => exact (Traced.sound_ofPowersM h.1 h.2).bind fun _ _ => Traced.sound_pure _
  | surdMul => exact (Traced.sound_mulM_surd h.1 h.2).bind fun _ _ => Traced.sound_pure _
  | whole | neg | ofScalar | surdNeg | coef | exponent => exact Traced.sound_pure _

/-- The computation makes a canonical value, if it makes one. -/
def MakesCanonical (x : Except Failure (Option Value)) : Prop :=
  ∀ v, x = .ok (some v) → v.Canonical

theorem makesCanonical_value (hv : v.Canonical) : MakesCanonical (.ok (some v)) := by
  intro w hw
  rwa [← Option.some.inj (Except.ok.inj hw)]

theorem makesCanonical_bind {α : Type} {x : Except Failure α} {f : α → Value}
    (h : ∀ a, x = .ok a → (f a).Canonical) : MakesCanonical (do return some (f (← x))) := by
  intro w hw
  obtain ⟨a, ha, hw⟩ := bind_eq_ok_iff.1 hw
  exact makesCanonical_value (h a ha) w hw

/-- A call on canonical values makes a canonical value. -/
theorem makesCanonical_perform (h : c.Canonical) : MakesCanonical c.perform := by
  cases c with
  | read text => exact makesCanonical_bind fun _ ha => Scalar.canonical_of_read ha
  | whole n => exact makesCanonical_value trivial
  | quotient n d => exact makesCanonical_bind fun _ ha => Scalar.canonical_quotient? ha
  | add a b =>
    rw [Call.perform_add]
    exact makesCanonical_value (Scalar.canonical_add h.1 h.2)
  | mul a b =>
    rw [Call.perform_mul]
    exact makesCanonical_value (Scalar.canonical_mul h.1 h.2)
  | neg => exact makesCanonical_value (Scalar.canonical_neg h)
  | inverse f =>
    refine makesCanonical_value (v := .scalar f.inverse) ?_
    rw [Fraction.Canonical.inverse_eq_ofRat h]
    exact Scalar.canonical_ofRat _
  | pow => exact makesCanonical_bind fun _ ha => Scalar.canonical_pow h ha
  | root n a =>
    intro v hv
    obtain ⟨root, hroot, hv⟩ := bind_eq_ok_iff.1 hv
    obtain ⟨r, rfl, rfl⟩ := Option.map_eq_some_iff.1 (Except.ok.inj hv)
    exact Scalar.canonical_of_root? h hroot
  | power => exact makesCanonical_bind fun _ hx => canonical_power h.1 h.2 hx
  | ofScalar => exact makesCanonical_value h
  | imaginaryPower => exact makesCanonical_bind fun _ hx => canonical_imaginaryPower hx
  | ofPowers => exact makesCanonical_bind fun _ hx => canonical_ofPowers h.1 h.2 hx
  | surdMul => exact makesCanonical_bind fun _ hx => canonical_mul h.1 h.2 hx
  | surdNeg => exact makesCanonical_value (canonical_neg h)
  | coef => exact makesCanonical_value (Surd.Canonical.coef_canonical h)
  | exponent x b =>
    intro v hv
    obtain ⟨e, he, rfl⟩ := Option.map_eq_some_iff.1 (Except.ok.inj hv)
    exact (Surd.Canonical.powers_canonical h).get? he

/-! ## Runs -/

theorem canonical_of_results (h : c.Canonical) : ∀ v ∈ c.results, v.Canonical := by
  intro v hv
  have hsome := Option.join_eq_some_iff.1 (Option.mem_toList.1 hv)
  exact makesCanonical_perform h v (toOption_eq_some_iff.1 hsome)

/-- In a run all values are canonical, and all calls are applied to canonical values. -/
theorem canonical_of_run (h : Run calls made) :
    (∀ v ∈ made, v.Canonical) ∧ ∀ c ∈ calls, c.Canonical := by
  induction h with
  | start => exact ⟨fun _ hv => absurd hv List.not_mem_nil, fun _ hc => absurd hc List.not_mem_nil⟩
  | @call calls made c _ operands ih =>
    obtain ⟨hmade, hcalls⟩ := ih
    have hc : c.Canonical := canonical_of_operands fun v hv => hmade v (operands v hv)
    refine ⟨fun v hv => ?_, fun d hd => ?_⟩
    · rcases List.mem_append.1 hv with hv | hv
      · exact canonical_of_results hc v hv
      · exact hmade v hv
    · rcases List.mem_cons.1 hd with rfl | hd
      · exact hc
      · exact hcalls d hd

theorem results_eq_singleton (h : c.perform = .ok (some v)) : c.results = [v] := by
  rw [Call.results, h]
  rfl

/-- All canonical numbers are made as quotients. -/
theorem exists_run_of_scalars : ∀ {scalars : List Scalar}, (∀ a ∈ scalars, a.Canonical) →
    ∃ calls made, Run calls made ∧ ∀ a ∈ scalars, .scalar a ∈ made
  | [], _ => ⟨[], [], .start, fun _ ha => absurd ha List.not_mem_nil⟩
  | a :: rest, h => by
    obtain ⟨ha, hrest⟩ := List.forall_mem_cons.1 h
    obtain ⟨calls, made, hrun, hmade⟩ := exists_run_of_scalars hrest
    have hperform : (Call.quotient a.num a.den).perform = .ok (some (.scalar a)) := by
      show (Scalar.quotient? a.num a.den >>= _) = _
      rw [ha.quotient?_num_den]
      rfl
    refine ⟨_, _, hrun.call (c := .quotient a.num a.den) nofun, List.forall_mem_cons.2 ⟨?_, ?_⟩⟩
    · rw [results_eq_singleton hperform]
      exact List.mem_cons_self
    · exact fun r hr => List.mem_append_right _ (hmade r hr)

/-- Runs make all canonical values and no others. -/
theorem exists_run_iff_canonical : (∃ calls made, Run calls made ∧ v ∈ made) ↔ v.Canonical := by
  refine ⟨fun ⟨_, _, hrun, hv⟩ => (canonical_of_run hrun).1 v hv, fun hv => ?_⟩
  obtain ⟨calls, made, hrun, hmade⟩ := exists_run_of_scalars hv.of_mem_scalars
  cases v with
  | scalar a => exact ⟨calls, made, hrun, hmade a (List.mem_singleton_self a)⟩
  | surd x =>
    have hperform : (Call.ofPowers x.coef x.powers).perform = .ok (some (.surd x)) := by
      show (Surd.ofPowers x.coef x.powers >>= _) = _
      rw [Surd.Canonical.ofPowers_eq hv]
      rfl
    refine ⟨_, _, hrun.call (c := .ofPowers x.coef x.powers) fun w hw => ?_, ?_⟩
    · rcases List.mem_cons.1 hw with rfl | hw
      · exact hmade _ List.mem_cons_self
      · obtain ⟨r, hr, rfl⟩ := List.mem_map.1 hw
        exact hmade _ (List.mem_cons_of_mem _ (List.mem_map_of_mem hr))
    · rw [results_eq_singleton hperform]
      exact List.mem_cons_self

/-- The surds in circulation are those that lists of operations make. -/
theorem exists_run_iff_reachable {x : Surd} :
    (∃ calls made, Run calls made ∧ .surd x ∈ made) ↔ x.Reachable :=
  exists_run_iff_canonical.trans reachable_iff_canonical.symm

/-- In every run all numbers are canonical, whole or fractions that reducing does not change, and
every pair that a call takes to be in lowest terms is in lowest terms. -/
theorem lowestTerms_of_run (h : Run calls made) :
    (∀ v ∈ made, ∀ a ∈ v.scalars, a.Canonical) ∧
      (∀ v ∈ made, ∀ f, .frac f ∈ v.scalars → f.isCanonical) ∧
      ∀ c ∈ calls, c.traced.result = c.perform ∧ ∀ f ∈ c.traced.pairs, f.LowestTerms := by
  obtain ⟨hmade, hcalls⟩ := canonical_of_run h
  have hscalars : ∀ v ∈ made, ∀ a ∈ v.scalars, a.Canonical :=
    fun v hv => (hmade v hv).of_mem_scalars
  refine ⟨hscalars, fun v hv f hf => ?_, fun c hc => ?_⟩
  · exact Fraction.isCanonical_iff.2 (hscalars v hv (.frac f) hf)
  · exact ⟨(sound_traced (hcalls c hc)).result, (sound_traced (hcalls c hc)).pairs⟩

/-- A run that reads `-6/4`, raises it to `-3`, takes the cube root of the power, raises what was
read to the root, and takes an exponent out of the surd that this makes. -/
theorem lowestTerms_of_run_of_powers :
    let x := product (.frac ⟨-1, 3⟩)
      (.ofList [(.int (-3), .frac ⟨1, 3⟩), (.int 2, .frac ⟨2, 3⟩)])
    let calls : List Call :=
      [.exponent x (.int 2), .power (.frac ⟨-3, 2⟩) (.frac ⟨-2, 3⟩), .root 3 (.frac ⟨-8, 27⟩),
        .pow (.frac ⟨-3, 2⟩) (-3), .read ['-', '6', '/', '4']]
    let made : List Value :=
      [.scalar (.frac ⟨2, 3⟩), .surd x, .scalar (.frac ⟨-2, 3⟩), .scalar (.frac ⟨-8, 27⟩),
        .scalar (.frac ⟨-3, 2⟩)]
    Run calls made ∧ (∀ v ∈ made, ∀ a ∈ v.scalars, a.Canonical) ∧
      (∀ v ∈ made, ∀ f, .frac f ∈ v.scalars → f.isCanonical) ∧
      ∀ c ∈ calls, c.traced.result = c.perform ∧ ∀ f ∈ c.traced.pairs, f.LowestTerms := by
  intro x calls made
  have hread : Run [.read ['-', '6', '/', '4']] [.scalar (.frac ⟨-3, 2⟩)] :=
    Run.start.call (c := .read ['-', '6', '/', '4']) (by decide)
  have hpow := hread.call (c := .pow (.frac ⟨-3, 2⟩) (-3)) (by decide)
  have hroot := hpow.call (c := .root 3 (.frac ⟨-8, 27⟩)) (by decide)
  have hpower := hroot.call (c := .power (.frac ⟨-3, 2⟩) (.frac ⟨-2, 3⟩)) (by decide)
  have hrun : Run calls made := hpower.call (c := .exponent x (.int 2)) (by decide)
  exact ⟨hrun, lowestTerms_of_run hrun⟩

end Surds
