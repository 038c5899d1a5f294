import Mathlib.Algebra.BigOperators.Finsupp.Basic
import Mathlib.Data.List.Sort
import Surds.Proofs.Scalar.Value
import Surds.Surd.Exponents

/-!
# Exponents as formal sums

`Exponents.toFinsupp` reads a map of exponents as a formal sum of bases with rational coefficients,
in which a base that does not occur has exponent zero. For canonical exponents the sum of two maps
is the sum of the formal sums (`toFinsupp_add`), and a product over the entries of a map is the
product over its formal sum (`prod_toFinsupp`).

The entries of a map are those that the view `get?` shows (`mem_entries_iff`), and the view
determines the map (`ext_get?`).
-/

namespace Surds

namespace Exponents

variable {p q : Exponents} {b : Base} {e : Scalar}

/-! ## Entries and the view -/

theorem nodup_keys (p : Exponents) : (p.entries.map Prod.fst).Nodup := by
  refine List.pairwise_map.2 (p.sorted.imp fun {a c} hac heq => ?_)
  rw [heq] at hac
  exact Base.lt_irrefl _ hac

theorem mem_entries_iff : (b, e) ∈ p.entries ↔ p.get? b = some e := by
  obtain ⟨entries, hsorted⟩ := p
  simp only [get?]
  induction entries with
  | nil => simp
  | cons r rest ih =>
    obtain ⟨c, f⟩ := r
    obtain ⟨hc, hrest⟩ := List.pairwise_cons.1 hsorted
    by_cases hbc : b = c
    · subst hbc
      have hnot : (b, e) ∉ rest := fun hmem => Base.lt_irrefl b (hc _ hmem)
      simp [hnot, eq_comm]
    · have hbeq : (b == c) = false := by simpa using hbc
      simp [List.lookup_cons, hbeq, hbc, ih hrest]

/-- The entries are in order, so a map is known from what it looks up. -/
theorem ext_get? (h : ∀ b, p.get? b = q.get? b) : p = q := by
  have hperm : p.entries.Perm q.entries := by
    refine (List.perm_ext_iff_of_nodup (List.Nodup.of_map _ p.nodup_keys)
      (List.Nodup.of_map _ q.nodup_keys)).2 fun r => ?_
    obtain ⟨b, e⟩ := r
    rw [mem_entries_iff, mem_entries_iff, h]
  refine Exponents.ext (hperm.eq_of_pairwise (fun a c _ _ hac hca => ?_) p.sorted q.sorted)
  exact absurd (Base.lt_trans hac hca) (Base.lt_irrefl _)

theorem get?_filterMap (keep : Base → Scalar → Option Scalar) (p : Exponents) (b : Base) :
    (p.filterMap keep).get? b = (p.get? b).bind (keep b) := by
  refine Option.ext fun e => ?_
  rw [Option.bind_eq_some_iff, ← mem_entries_iff]
  simp only [filterMap, List.mem_filterMap, Option.map_eq_some_iff, ← mem_entries_iff]
  constructor
  · rintro ⟨⟨c, f⟩, hmem, e', hkeep, heq⟩
    obtain ⟨rfl, rfl⟩ := Prod.mk.inj heq
    exact ⟨f, hmem, hkeep⟩
  · rintro ⟨f, hmem, hkeep⟩
    exact ⟨(b, f), hmem, e, hkeep, rfl⟩

/-! ## Canonical exponents -/

/-- Every exponent of the map is canonical. -/
def Canonical (p : Exponents) : Prop :=
  ∀ r ∈ p.entries, r.2.Canonical

instance (p : Exponents) : Decidable p.Canonical :=
  inferInstanceAs (Decidable (∀ r ∈ p.entries, r.2.Canonical))

theorem canonical_single (he : e.Canonical) : (single b e).Canonical := by
  intro r hr
  rw [List.mem_singleton.1 hr]
  exact he

theorem Canonical.get? (h : p.Canonical) (hb : p.get? b = some e) : e.Canonical :=
  h _ (mem_entries_iff.2 hb)

theorem Canonical.insert (h : p.Canonical) (he : e.Canonical) : (p.insert b e).Canonical := by
  intro r hr
  rcases eq_or_mem_of_mem_insertEntry hr with rfl | hr
  · exact he
  · exact h r hr

theorem Canonical.raise (h : p.Canonical) (he : e.Canonical) : (p.raise b e).Canonical := by
  rw [raise_eq_match]
  split
  · rename_i f hf
    exact h.insert (Scalar.canonical_add (h.get? hf) he)
  · exact h.insert he

/-! ## The formal sum -/

/-- The formal sum of the bases with their exponents. -/
noncomputable def toFinsupp (p : Exponents) : Base →₀ ℚ :=
  (p.entries.map fun r => Finsupp.single r.1 r.2.value).sum

theorem sum_apply_eq_zero {entries : List (Base × Scalar)} (h : ∀ r ∈ entries, r.1 ≠ b) :
    (entries.map fun r => Finsupp.single r.1 r.2.value).sum b = 0 := by
  induction entries with
  | nil => rfl
  | cons r rest ih =>
    rw [List.map_cons, List.sum_cons, Finsupp.add_apply,
      Finsupp.single_eq_of_ne (h r List.mem_cons_self).symm,
      ih fun s hs => h s (List.mem_cons_of_mem _ hs), add_zero]

theorem toFinsupp_apply (p : Exponents) (b : Base) :
    p.toFinsupp b = ((p.get? b).map Scalar.value).getD 0 := by
  obtain ⟨entries, hsorted⟩ := p
  simp only [toFinsupp, get?]
  induction entries with
  | nil => rfl
  | cons r rest ih =>
    obtain ⟨c, f⟩ := r
    obtain ⟨hc, hrest⟩ := List.pairwise_cons.1 hsorted
    rw [List.map_cons, List.sum_cons, Finsupp.add_apply, List.lookup_cons]
    by_cases hbc : b = c
    · subst hbc
      have hzero := sum_apply_eq_zero (b := b) fun s hs (heq : s.1 = b) =>
        Base.lt_irrefl b (by simpa [heq] using hc s hs)
      simp [hzero]
    · have hbeq : (b == c) = false := by simpa using hbc
      rw [Finsupp.single_eq_of_ne hbc, zero_add, ih hrest, hbeq]

theorem toFinsupp_of_get? (h : p.get? b = some e) : p.toFinsupp b = e.value := by
  rw [toFinsupp_apply, h]
  rfl

theorem toFinsupp_of_get?_none (h : p.get? b = none) : p.toFinsupp b = 0 := by
  rw [toFinsupp_apply, h]
  rfl

@[simp] theorem toFinsupp_empty : (∅ : Exponents).toFinsupp = 0 :=
  rfl

@[simp] theorem toFinsupp_single (b : Base) (e : Scalar) :
    (single b e).toFinsupp = Finsupp.single b e.value := by
  simp [toFinsupp, single]

/-- Setting the exponent of a base that does not occur adds a term. -/
theorem toFinsupp_insert (h : p.get? b = none) (e : Scalar) :
    (p.insert b e).toFinsupp = p.toFinsupp + Finsupp.single b e.value := by
  ext c
  rw [Finsupp.add_apply, toFinsupp_apply, toFinsupp_apply]
  by_cases hc : c = b
  · subst hc
    simp [h]
  · rw [get?_insert_of_ne hc, Finsupp.single_eq_of_ne hc, add_zero]

theorem toFinsupp_raise (h : p.Canonical) (he : e.Canonical) :
    (p.raise b e).toFinsupp = p.toFinsupp + Finsupp.single b e.value := by
  rw [raise_eq_match]
  split
  · rename_i f hf
    ext c
    rw [Finsupp.add_apply, toFinsupp_apply, toFinsupp_apply]
    by_cases hc : c = b
    · subst hc
      simp [hf, Scalar.value_add (h.get? hf) he]
    · rw [get?_insert_of_ne hc, Finsupp.single_eq_of_ne hc, add_zero]
  · rename_i hnone
    exact toFinsupp_insert hnone e

/-- What raising exponents one after the other does to the formal sum. -/
theorem foldl_raise :
    ∀ (entries : List (Base × Scalar)) (p : Exponents), p.Canonical →
      (∀ r ∈ entries, r.2.Canonical) →
      (entries.foldl (fun sum r => sum.raise r.1 r.2) p).Canonical ∧
        (entries.foldl (fun sum r => sum.raise r.1 r.2) p).toFinsupp =
          p.toFinsupp + (entries.map fun r => Finsupp.single r.1 r.2.value).sum
  | [], p, hp, _ => ⟨hp, by simp⟩
  | r :: rest, p, hp, h => by
    have hr := h r List.mem_cons_self
    obtain ⟨hcan, hsum⟩ := foldl_raise rest (p.raise r.1 r.2) (hp.raise hr)
      fun s hs => h s (List.mem_cons_of_mem _ hs)
    refine ⟨hcan, hsum.trans ?_⟩
    rw [toFinsupp_raise hp hr, List.map_cons, List.sum_cons, add_assoc]

theorem Canonical.add (hp : p.Canonical) (hq : q.Canonical) : (p + q).Canonical := by
  rw [add_eq_foldl]
  exact (foldl_raise q.entries p hp hq).1

theorem toFinsupp_add (hp : p.Canonical) (hq : q.Canonical) :
    (p + q).toFinsupp = p.toFinsupp + q.toFinsupp := by
  rw [add_eq_foldl]
  exact (foldl_raise q.entries p hp hq).2

/-- A product over the entries is a product over the formal sum. -/
theorem prod_toFinsupp {g : Base → ℚ → ℚ} (hg : ∀ b, g b 0 = 1) (p : Exponents) :
    p.toFinsupp.prod g = (p.entries.map fun r => g r.1 r.2.value).prod := by
  obtain ⟨entries, hsorted⟩ := p
  simp only [toFinsupp]
  induction entries with
  | nil => exact Finsupp.prod_zero_index
  | cons r rest ih =>
    obtain ⟨hr, hrest⟩ := List.pairwise_cons.1 hsorted
    have hzero := sum_apply_eq_zero (b := r.1) fun s hs (heq : s.1 = r.1) =>
      Base.lt_irrefl r.1 (by simpa [heq] using hr s hs)
    have hdisj : Disjoint (Finsupp.single r.1 r.2.value).support
        (rest.map fun r => Finsupp.single r.1 r.2.value).sum.support := by
      refine Finset.disjoint_left.2 fun c hc hc' => Finsupp.mem_support_iff.1 hc' ?_
      rw [Finset.mem_singleton.1 (Finsupp.support_single_subset hc)]
      exact hzero
    rw [List.map_cons, List.sum_cons, Finsupp.prod_add_index_of_disjoint hdisj,
      Finsupp.prod_single_index (hg _), ih hrest, List.map_cons, List.prod_cons]

end Exponents

end Surds
