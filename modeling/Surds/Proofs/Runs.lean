import Surds.Proofs.Power.Exact

/-!
# Runs of operations

Surds are made by operations from scalars and from surds made before. A run performs a list of
operations one after the other and keeps the results of those that succeed. Every surd that a run
with canonical arguments makes is canonical (`canonical_of_mem_run`), since every operation on
canonical surds makes one (`canonical_of_perform`).
-/

namespace Surds

open Surd

/-- An operation that makes a surd. Surds made before are given by their number in the run. -/
inductive Operation
  /-- A rational number. -/
  | scalar (a : Scalar)
  /-- The imaginary unit. -/
  | imaginary
  /-- A coefficient times a product of powers. -/
  | ofPowers (coef : Scalar) (powers : Exponents)
  /-- An integer power of the imaginary unit. -/
  | imaginaryPower (k : ℤ)
  /-- The power of two scalars. -/
  | power (b e : Scalar)
  /-- The product of two surds. -/
  | mul (i j : ℕ)
  /-- The surd of opposite sign. -/
  | neg (i : ℕ)

namespace Operation

/-- The scalars and the exponents that the operation is given are canonical. -/
def Canonical : Operation → Prop
  | scalar a => a.Canonical
  | ofPowers c p => c.Canonical ∧ p.Canonical
  | power b e => b.Canonical ∧ e.Canonical
  | imaginary | imaginaryPower _ | mul _ _ | neg _ => True

instance : (op : Operation) → Decidable op.Canonical
  | scalar a => inferInstanceAs (Decidable a.Canonical)
  | ofPowers c p => inferInstanceAs (Decidable (c.Canonical ∧ ∀ r ∈ p.entries, r.2.Canonical))
  | power b e => inferInstanceAs (Decidable (b.Canonical ∧ e.Canonical))
  | imaginary | imaginaryPower _ | mul _ _ | neg _ => inferInstanceAs (Decidable True)

/-- The surd that an operation makes after the surds of `made`, if it makes one. -/
def perform (made : List Surd) : Operation → Option Surd
  | scalar a => some (.scalar a)
  | imaginary => some .imaginary
  | ofPowers c p => (Surd.ofPowers c p).toOption
  | imaginaryPower k => (Surd.imaginaryPower k).toOption
  | power b e => (Surds.power b e).toOption
  | mul i j => do ((← made[i]?).mul (← made[j]?)).toOption
  | neg i => made[i]?.map (- ·)

end Operation

/-- The surds of `made`, followed by those that the operations make, in their order. An operation
that makes none is passed over. -/
def runFrom (made : List Surd) : List Operation → List Surd
  | [] => made
  | op :: rest => runFrom (made ++ (op.perform made).toList) rest

/-- The surds that a list of operations makes. -/
def run (operations : List Operation) : List Surd :=
  runFrom [] operations

variable {made : List Surd} {x : Surd}

/-- Every operation with canonical arguments makes a canonical surd of canonical surds. -/
theorem canonical_of_perform (hmade : ∀ y ∈ made, y.Canonical) :
    ∀ {op : Operation}, op.Canonical → op.perform made = some x → x.Canonical
  | .scalar a, ha, h => by
    rw [← Option.some.inj h]
    exact ha
  | .imaginary, _, h => by
    rw [← Option.some.inj h]
    exact trivial
  | .ofPowers c p, ⟨hc, hp⟩, h => canonical_ofPowers hc hp (toOption_eq_some_iff.1 h)
  | .imaginaryPower k, _, h => canonical_imaginaryPower (toOption_eq_some_iff.1 h)
  | .power b e, ⟨hb, he⟩, h => canonical_power hb he (toOption_eq_some_iff.1 h)
  | .mul i j, _, h => by
    obtain ⟨y, hy, h⟩ := Option.bind_eq_some_iff.1 h
    obtain ⟨z, hz, h⟩ := Option.bind_eq_some_iff.1 h
    exact canonical_mul (hmade y (List.mem_of_getElem? hy)) (hmade z (List.mem_of_getElem? hz))
      (toOption_eq_some_iff.1 h)
  | .neg i, _, h => by
    obtain ⟨y, hy, rfl⟩ := Option.map_eq_some_iff.1 h
    exact canonical_neg (hmade y (List.mem_of_getElem? hy))

/-- Surds that are canonical at the start of a run stay so, and new ones are canonical too. -/
theorem canonical_of_mem_runFrom :
    ∀ {operations : List Operation} {made : List Surd}, (∀ op ∈ operations, op.Canonical) →
      (∀ y ∈ made, y.Canonical) → ∀ x ∈ runFrom made operations, x.Canonical
  | [], _, _, hmade => hmade
  | op :: rest, made, hops, hmade => by
    have hnew : ∀ y ∈ made ++ (op.perform made).toList, y.Canonical := by
      intro y hy
      rcases List.mem_append.1 hy with hold | hmem
      · exact hmade y hold
      · exact canonical_of_perform hmade (hops op List.mem_cons_self) (Option.mem_toList.1 hmem)
    rw [runFrom]
    exact canonical_of_mem_runFrom (fun o ho => hops o (List.mem_cons_of_mem _ ho)) hnew

/-- A surd is reachable when some run with canonical arguments makes it. -/
def Surd.Reachable (x : Surd) : Prop :=
  ∃ operations : List Operation, (∀ op ∈ operations, op.Canonical) ∧ x ∈ run operations

theorem Surd.Reachable.canonical (h : x.Reachable) : x.Canonical := by
  obtain ⟨operations, hops, hmem⟩ := h
  exact canonical_of_mem_runFrom hops (fun _ hy => absurd hy List.not_mem_nil) x hmem

/-- Every surd that a run makes is canonical. -/
theorem canonical_of_mem_run {operations : List Operation}
    (hops : ∀ op ∈ operations, op.Canonical) : ∀ x ∈ run operations, x.Canonical :=
  canonical_of_mem_runFrom hops fun _ hy => absurd hy List.not_mem_nil

/-- A run with powers of zero, of minus one and of the imaginary unit that makes four surds. -/
theorem canonical_of_mem_run_of_mixed_powers :
    let operations : List Operation :=
      [.ofPowers (.frac ⟨1, 2⟩) (.ofList [(.int 0, .whole 0), (.int (-1), .frac ⟨-5, 3⟩),
        (.imaginary, .frac ⟨1, 2⟩)]), .power (.whole (-8)) (.frac ⟨1, 2⟩), .mul 0 1, .neg 2]
    (∀ op ∈ operations, op.Canonical) ∧ (run operations).length = 4 ∧
      ∀ x ∈ run operations, x.Canonical := by
  intro operations
  have hops : ∀ op ∈ operations, op.Canonical := by decide
  exact ⟨hops, rfl, canonical_of_mem_run hops⟩

end Surds
