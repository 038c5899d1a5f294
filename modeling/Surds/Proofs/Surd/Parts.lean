import Surds.Proofs.Runs

/-!
# Surds and their parts

A power that is kept carries nothing more (`Base.Keeps.carried_eq`) and is kept as it is
(`Base.Keeps.kept_eq`). So the canonical form of the coefficient and the powers of a canonical surd
is the surd itself (`Canonical.ofPowers_eq`) : taking a surd apart and putting it together again
changes nothing, whichever operations have made it (`ofPowers_of_reachable`). It also makes every
canonical surd, so these are all that operations can make (`reachable_iff_canonical`).
-/

namespace Surds

/-! ## Kept powers -/

/-- Between zero and one there is nothing to take out. -/
theorem Fraction.split_of_lt_one {r : Fraction} (h0 : 0 ≤ r.num) (h1 : r.num < r.den) :
    r.floor = 0 ∧ r.fractionalPart = r :=
  ⟨Int.ediv_eq_zero_of_lt h0 h1, by rw [fractionalPart, Int.emod_eq_of_lt h0 h1]⟩

namespace Base

theorem Keeps.carried_eq : ∀ {b : Base} {e : Scalar}, b.Keeps e → b.carried e = .ok 1
  | imaginary, .whole k, h => by
    obtain rfl : k = 1 := h
    rfl
  | imaginary, .frac _, _ => rfl
  | int _, .whole _, h => h.elim
  | int n, .frac r, ⟨h0, _, _, hpos, hlt⟩ => by
    rw [carried_int_frac, if_neg h0, (Fraction.split_of_lt_one hpos.le hlt).1]
    rfl

theorem Keeps.kept_eq : ∀ {b : Base} {e : Scalar}, b.Keeps e → b.kept e = some e
  | imaginary, .whole k, h => by
    obtain rfl : k = 1 := h
    rfl
  | imaginary, .frac _, _ => rfl
  | int _, .whole _, h => h.elim
  | int n, .frac r, ⟨h0, h1, _, hpos, hlt⟩ => by
    rw [kept_int_frac, if_neg (not_or.2 ⟨h0, h1⟩), (Fraction.split_of_lt_one hpos.le hlt).2]

end Base

theorem Exponents.filterMap_kept {p : Exponents} (h : ∀ r ∈ p.entries, r.1.Keeps r.2) :
    p.filterMap Base.kept = p := by
  refine Exponents.ext ?_
  show p.entries.filterMap (fun r => (r.1.kept r.2).map fun e => (r.1, e)) = p.entries
  conv_rhs => rw [← List.filterMap_some (l := p.entries)]
  refine List.filterMap_congr fun r hr => ?_
  rw [(h r hr).kept_eq, Option.map_some]

namespace Surd

variable {c : Scalar} {x y : Surd}

theorem carriedInto_of_keeps (hc : c.Canonical) :
    ∀ {entries : List (Base × Scalar)}, (∀ r ∈ entries, r.1.Keeps r.2) →
      carriedInto c entries = .ok c
  | [], _ => rfl
  | r :: rest, h => by
    have hone : c * 1 = c := by
      rw [Scalar.mul_eq_ofRat hc Scalar.canonical_one, Scalar.value_one, mul_one, hc.ofRat_value]
    rw [carriedInto, List.foldlM_cons, (h r List.mem_cons_self).carried_eq]
    show carriedInto (c * 1) rest = .ok c
    rw [hone]
    exact carriedInto_of_keeps hc fun q hq => h q (List.mem_cons_of_mem _ hq)

/-! ## Canonical surds -/

/-- The canonical form of the parts of a canonical surd is the surd. -/
theorem Canonical.ofPowers_eq (hx : x.Canonical) : ofPowers x.coef x.powers = .ok x := by
  refine ofPowers_eq_ok_iff.2 ⟨x.coef, carriedInto_of_keeps hx.coef_canonical hx.keeps, ?_⟩
  split_ifs with h0
  · exact hx.eq_zero h0
  · rw [Exponents.filterMap_kept hx.keeps, hx.collapse_eq]

/-- The reachable surds are the canonical ones : a canonical surd is made of its parts in one
operation. -/
theorem reachable_iff_canonical : x.Reachable ↔ x.Canonical := by
  refine ⟨Reachable.canonical, fun hx => ⟨[.ofPowers x.coef x.powers], ?_, ?_⟩⟩
  · exact List.forall_mem_singleton.2 ⟨hx.coef_canonical, hx.powers_canonical⟩
  · have hmade : (Operation.ofPowers x.coef x.powers).perform [] = some x :=
      toOption_eq_some_iff.2 hx.ofPowers_eq
    rw [run, runFrom, runFrom, hmade]
    exact List.mem_singleton_self x

/-- Bringing the parts of a reachable surd into canonical form gives the surd back, and so there is
only one reachable surd with these parts. -/
theorem ofPowers_of_reachable (hx : x.Reachable) :
    ofPowers x.coef x.powers = .ok x ∧
      ∀ y : Surd, y.Reachable → y.coef = x.coef → y.powers = x.powers → y = x := by
  have hself := hx.canonical.ofPowers_eq
  refine ⟨hself, fun y hy hcoef hpowers => ?_⟩
  have hother := hy.canonical.ofPowers_eq
  rw [hcoef, hpowers, hself] at hother
  exact (Except.ok.inj hother).symm

/-- A product with coefficient one over a root of the imaginary unit, and a root of minus one, both
made by a negation. -/
theorem ofPowers_of_reachable_of_odd_residents :
    let x := product 1 (.single .imaginary (.frac ⟨1, 2⟩))
    let y := root (-1) ⟨1, 3⟩
    x.Reachable ∧ ofPowers x.coef x.powers = .ok x ∧
      y.Reachable ∧ ofPowers y.coef y.powers = .ok y := by
  intro x y
  have hx : x.Reachable :=
    ⟨[.ofPowers (-1) (.single .imaginary (.frac ⟨1, 2⟩)), .neg 0], by decide, by decide⟩
  have hy : y.Reachable :=
    ⟨[.ofPowers 1 (.single (.int (-1)) (.frac ⟨-2, 3⟩)), .neg 0], by decide, by decide⟩
  exact ⟨hx, (ofPowers_of_reachable hx).1, hy, (ofPowers_of_reachable hy).1⟩

end Surd

end Surds
