import Surds.Scalar.Basic

/-!
# Exponents

A product of powers is given by `Exponents`, which map each `Base` to its exponent. The bases are
kept in order, the imaginary unit first and then the integers from below, so that two equal maps are
equal as lists of entries.

`insert` sets an exponent, `raise` adds to one, and the sum of two maps adds the exponents base by
base. `get?_insert_self` and `get?_insert_of_ne` say what an insertion does to the view `get?`.
-/

namespace Surds

/-- A base in a product of powers: the imaginary unit or an integer. -/
inductive Base
  | imaginary
  | int (n : Int)
  deriving DecidableEq

namespace Base

/-- The imaginary unit comes before all integers, and they come in their own order. -/
def before : Base → Base → Bool
  | imaginary, int _ => true
  | int m, int n => m < n
  | _, imaginary => false

instance : LT Base := ⟨fun b c => b.before c = true⟩

instance (b c : Base) : Decidable (b < c) :=
  inferInstanceAs (Decidable (b.before c = true))

theorem imaginary_lt_int (n : Int) : imaginary < int n :=
  rfl

theorem int_lt_int_iff {m n : Int} : int m < int n ↔ m < n := by
  simp [LT.lt, before]

theorem not_lt_imaginary (b : Base) : ¬ b < imaginary := by
  cases b <;> simp [LT.lt, before]

theorem lt_irrefl (b : Base) : ¬ b < b := by
  cases b with
  | imaginary => exact not_lt_imaginary _
  | int n => simp [int_lt_int_iff]

theorem lt_trans {a b c : Base} (hab : a < b) (hbc : b < c) : a < c := by
  cases c with
  | imaginary => exact absurd hbc (not_lt_imaginary b)
  | int n =>
    cases a with
    | imaginary => exact imaginary_lt_int n
    | int l =>
      cases b with
      | imaginary => exact absurd hab (not_lt_imaginary _)
      | int m => exact int_lt_int_iff.2 (Int.lt_trans (int_lt_int_iff.1 hab) (int_lt_int_iff.1 hbc))

/-- Of two different bases one comes first. -/
theorem lt_of_not_lt_of_ne {a b : Base} (h : ¬ a < b) (hne : a ≠ b) : b < a := by
  cases a with
  | imaginary =>
    cases b with
    | imaginary => exact absurd rfl hne
    | int n => exact absurd (imaginary_lt_int n) h
  | int m =>
    cases b with
    | imaginary => exact imaginary_lt_int m
    | int n =>
      rw [int_lt_int_iff] at h ⊢
      have : m ≠ n := fun e => hne (by rw [e])
      omega

end Base

/-! ## Entries in order -/

/-- The entries with the exponent of `b` set to `e`. -/
def insertEntry (b : Base) (e : Scalar) : List (Base × Scalar) → List (Base × Scalar)
  | [] => [(b, e)]
  | (c, f) :: rest =>
    if b < c then (b, e) :: (c, f) :: rest
    else if b = c then (b, e) :: rest
    else (c, f) :: insertEntry b e rest

theorem eq_or_mem_of_mem_insertEntry {b : Base} {e : Scalar} {p : Base × Scalar} :
    ∀ {entries : List (Base × Scalar)}, p ∈ insertEntry b e entries → p = (b, e) ∨ p ∈ entries
  | [], h => by simpa [insertEntry] using h
  | (c, f) :: rest, h => by
    simp only [insertEntry] at h
    split at h
    · simpa using h
    · split at h
      · rcases List.mem_cons.1 h with h | h
        · exact Or.inl h
        · exact Or.inr (List.mem_cons_of_mem _ h)
      · rcases List.mem_cons.1 h with h | h
        · exact Or.inr (by simp [h])
        · rcases eq_or_mem_of_mem_insertEntry h with h | h
          · exact Or.inl h
          · exact Or.inr (List.mem_cons_of_mem _ h)

theorem pairwise_insertEntry (b : Base) (e : Scalar) :
    ∀ {entries : List (Base × Scalar)}, entries.Pairwise (fun p q => p.1 < q.1) →
      (insertEntry b e entries).Pairwise (fun p q => p.1 < q.1)
  | [], _ => by simp [insertEntry]
  | (c, f) :: rest, h => by
    obtain ⟨hc, hrest⟩ := List.pairwise_cons.1 h
    simp only [insertEntry]
    split
    · rename_i hbc
      refine List.pairwise_cons.2 ⟨fun p hp => ?_, h⟩
      rcases List.mem_cons.1 hp with rfl | hp
      · exact hbc
      · exact Base.lt_trans hbc (hc p hp)
    · rename_i hbc
      split
      · rename_i heq
        subst heq
        exact List.pairwise_cons.2 ⟨hc, hrest⟩
      · rename_i hne
        refine List.pairwise_cons.2 ⟨fun p hp => ?_, pairwise_insertEntry b e hrest⟩
        rcases eq_or_mem_of_mem_insertEntry hp with rfl | hp
        · exact Base.lt_of_not_lt_of_ne hbc hne
        · exact hc p hp

/-- Entries that come in order are inserted at the end. -/
theorem insertEntry_of_forall_lt {b : Base} (e : Scalar) :
    ∀ {entries : List (Base × Scalar)}, (∀ p ∈ entries, p.1 < b) →
      insertEntry b e entries = entries ++ [(b, e)]
  | [], _ => rfl
  | (c, f) :: rest, h => by
    have hcb : c < b := h (c, f) List.mem_cons_self
    have hbc : ¬ b < c := fun hbc => Base.lt_irrefl b (Base.lt_trans hbc hcb)
    have hne : b ≠ c := fun heq => Base.lt_irrefl b (heq ▸ hcb)
    rw [insertEntry, if_neg hbc, if_neg hne,
      insertEntry_of_forall_lt e fun p hp => h p (List.mem_cons_of_mem _ hp), List.cons_append]

/-! ## The map -/

/-- Bases with their exponents, each base at most once and in order. -/
structure Exponents where
  entries : List (Base × Scalar)
  sorted : entries.Pairwise (fun p q => p.1 < q.1)
  deriving DecidableEq

namespace Exponents

/-- Equal entries make equal maps. -/
@[ext] theorem ext : ∀ {p q : Exponents}, p.entries = q.entries → p = q
  | ⟨_, _⟩, ⟨_, _⟩, rfl => rfl

instance : EmptyCollection Exponents := ⟨⟨[], List.Pairwise.nil⟩⟩

/-- The exponent of a base, if it has one. -/
def get? (powers : Exponents) (b : Base) : Option Scalar :=
  powers.entries.lookup b

/-- The exponents with that of `b` set to `e`. -/
def insert (powers : Exponents) (b : Base) (e : Scalar) : Exponents :=
  ⟨insertEntry b e powers.entries, pairwise_insertEntry b e powers.sorted⟩

/-- One base with its exponent. -/
def single (b : Base) (e : Scalar) : Exponents :=
  ⟨[(b, e)], List.pairwise_singleton _ _⟩

/-- The exponents after the entries of a list are set from left to right. -/
def ofList (entries : List (Base × Scalar)) : Exponents :=
  entries.foldl (fun powers p => powers.insert p.1 p.2) ∅

section

variable {m : Type → Type} [Monad m] [Trusting m]

/-- The exponents with `e` added to that of `b`. -/
def raiseM (powers : Exponents) (b : Base) (e : Scalar) : m Exponents :=
  match powers.get? b with
  | some f => return powers.insert b (← f.addM e)
  | none => return powers.insert b e

/-- The exponents of a product: those of one base add up. -/
def addM (powers others : Exponents) : m Exponents :=
  others.entries.foldlM (fun sum p => sum.raiseM p.1 p.2) powers

end

/-- The exponents with `e` added to that of `b`. -/
def raise (powers : Exponents) (b : Base) (e : Scalar) : Exponents :=
  Id.run (powers.raiseM b e)

/-- The exponents of a product: those of one base add up. -/
def add (powers others : Exponents) : Exponents :=
  Id.run (powers.addM others)

instance : Add Exponents := ⟨add⟩

theorem raise_eq_match (powers : Exponents) (b : Base) (e : Scalar) : powers.raise b e =
    match powers.get? b with
    | some f => powers.insert b (f + e)
    | none => powers.insert b e := by
  rw [raise, raiseM]
  cases powers.get? b <;> rfl

theorem raiseM_eq_ok (powers : Exponents) (b : Base) (e : Scalar) :
    (powers.raiseM b e : Except Failure Exponents) = .ok (powers.raise b e) := by
  rw [raiseM, raise_eq_match]
  cases powers.get? b with
  | none => rfl
  | some f =>
    show f.addM e >>= _ = _
    rw [Scalar.addM_eq_ok]
    rfl

theorem add_eq_foldl (powers others : Exponents) :
    powers + others = others.entries.foldl (fun sum p => sum.raise p.1 p.2) powers :=
  (List.foldl_eq_foldlM ..).symm

theorem addM_eq_ok (powers others : Exponents) :
    (powers.addM others : Except Failure Exponents) = .ok (powers + others) := by
  rw [addM, add_eq_foldl]
  induction others.entries generalizing powers with
  | nil => rfl
  | cons p rest ih =>
    rw [List.foldlM_cons, raiseM_eq_ok]
    exact ih _

/-- Replace or drop each exponent. -/
def filterMap (keep : Base → Scalar → Option Scalar) (powers : Exponents) : Exponents where
  entries := powers.entries.filterMap fun p => (keep p.1 p.2).map fun e => (p.1, e)
  sorted := by
    refine powers.sorted.filterMap _ fun p q hpq p' hp q' hq => ?_
    simp only [Option.map_eq_some_iff] at hp hq
    obtain ⟨_, _, rfl⟩ := hp
    obtain ⟨_, _, rfl⟩ := hq
    exact hpq

/-! ## The view `get?` -/

@[simp] theorem get?_empty (b : Base) : (∅ : Exponents).get? b = none :=
  rfl

@[simp] theorem get?_insert_self (powers : Exponents) (b : Base) (e : Scalar) :
    (powers.insert b e).get? b = some e := by
  obtain ⟨entries, _⟩ := powers
  simp only [get?, insert]
  induction entries with
  | nil => simp [insertEntry]
  | cons p rest ih =>
    obtain ⟨c, f⟩ := p
    simp only [insertEntry]
    split
    · simp
    · split
      · simp
      · rename_i hne
        have hbeq : (b == c) = false := by simpa using hne
        rw [List.lookup_cons, hbeq]
        rename_i hsorted _
        exact ih (List.pairwise_cons.1 hsorted).2

theorem get?_insert_of_ne {b c : Base} (h : c ≠ b) (powers : Exponents) (e : Scalar) :
    (powers.insert b e).get? c = powers.get? c := by
  obtain ⟨entries, hsorted⟩ := powers
  have hcb : (c == b) = false := by simpa using h
  simp only [get?, insert]
  induction entries with
  | nil => simp [insertEntry, List.lookup_cons, hcb]
  | cons p rest ih =>
    obtain ⟨d, f⟩ := p
    have ih := ih (List.pairwise_cons.1 hsorted).2
    simp only [insertEntry]
    split
    · rw [List.lookup_cons, hcb]
    · split
      · rename_i hbd
        rw [List.lookup_cons, hcb, List.lookup_cons, ← hbd, hcb]
      · rw [List.lookup_cons, List.lookup_cons, ih]

end Exponents

end Surds
