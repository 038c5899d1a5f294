import Surds.Proofs.Runs
import Surds.Proofs.Scalar.RoundTrip
import Surds.Surd.Text

/-!
# Reading surds back

The text of a surd determines the surd. `decode?` takes a text apart : the marks `*` separate its
factors, the first factor tells the coefficient, and the base of a power ends at `^`. What it finds
in the text of a canonical surd is the coefficient and the powers (`decode?_write`), and from these
the surd is known (`Canonical.ext`).

Powers and coefficients are told apart by their characters. A power has `I` or `^` in it and a
coefficient has neither. A power does not start with `-`, because negative bases stand in
parentheses, so a sign in front of one stands for the coefficient minus one (`PowerText`).
-/

namespace Surds

open Text

variable {b : Base} {e : Scalar} {c : Char} {cs : List Char}

/-! ## Parentheses -/

/-- A text without the parentheses around it, if it starts with one. -/
def unwrap : List Char → List Char
  | '(' :: cs => cs.dropLast
  | cs => cs

theorem unwrap_wrapped (cs : List Char) : unwrap ('(' :: cs ++ [')']) = cs :=
  List.dropLast_concat

theorem unwrap_of_notMem (h : '(' ∉ cs) : unwrap cs = cs := by
  unfold unwrap
  split
  · exact absurd List.mem_cons_self h
  · rfl

theorem mem_wrapped_iff : c ∈ '(' :: cs ++ [')'] ↔ c = '(' ∨ c = ')' ∨ c ∈ cs := by
  rw [List.cons_append, List.mem_cons, List.mem_append, List.mem_singleton, or_comm (a := c ∈ cs)]

theorem paren_notMem_numeral (k : ℤ) : '(' ∉ Numeral.write k :=
  mt Numeral.mem_of_mem_write (by decide)

/-! ## Exponents -/

namespace Scalar

theorem unwrap_writeExponent : ∀ a : Scalar, unwrap a.writeExponent = a.write
  | whole k => unwrap_of_notMem (paren_notMem_numeral k)
  | frac f => unwrap_wrapped f.write

theorem mem_of_mem_writeExponent :
    ∀ {a : Scalar}, c ∈ a.writeExponent → c ∈ '(' :: ')' :: '/' :: '-' :: Numeral.digits
  | whole k, h => List.mem_append_right ['(', ')'] (mem_of_mem_write (a := whole k) h)
  | frac f, h => by
    rcases mem_wrapped_iff.1 h with rfl | rfl | hmem
    · decide
    · decide
    · exact List.mem_append_right ['(', ')'] (mem_of_mem_write (a := frac f) hmem)

end Scalar

/-! ## Powers -/

namespace Base

/-- The base that a text writes. -/
def read? (cs : List Char) : Option Base :=
  if cs = ['I'] then some imaginary else (Numeral.read? (unwrap cs)).map int

/-- The base and the exponent that a text writes. An exponent that is left out is one. -/
def readPower? (cs : List Char) : Option (Base × Scalar) :=
  match cut? '^' cs with
  | some (base, exponent) => do
    return (← read? base, ← (Scalar.read (unwrap exponent)).toOption)
  | none => (read? cs).map fun b => (b, 1)

/-- An integer base is in parentheses or not. -/
theorem unwrap_write_int (n : ℤ) : unwrap (int n).write = Numeral.write n := by
  rw [write]
  split_ifs
  · exact unwrap_wrapped _
  · exact unwrap_of_notMem (paren_notMem_numeral n)

theorem mem_of_mem_write :
    ∀ {b : Base}, c ∈ b.write → c ∈ 'I' :: '(' :: ')' :: '-' :: Numeral.digits
  | imaginary, h => by
    rw [List.mem_singleton.1 h]
    exact List.mem_cons_self
  | int n, h => by
    rw [write] at h
    split_ifs at h
    · rcases mem_wrapped_iff.1 h with rfl | rfl | hmem
      · decide
      · decide
      · exact List.mem_append_right ['I', '(', ')'] (Numeral.mem_of_mem_write hmem)
    · exact List.mem_append_right ['I', '(', ')'] (Numeral.mem_of_mem_write h)

theorem caret_notMem_write (b : Base) : '^' ∉ b.write :=
  mt mem_of_mem_write (by decide)

theorem write_int_ne_imaginary (n : ℤ) : (int n).write ≠ ['I'] := by
  intro h
  have hunwrap := unwrap_write_int n
  rw [h] at hunwrap
  have hmem : 'I' ∈ Numeral.write n := by
    rw [← hunwrap]
    exact List.mem_cons_self
  exact absurd (Numeral.mem_of_mem_write hmem) (by decide)

theorem read?_write : ∀ b : Base, read? b.write = some b
  | imaginary => rfl
  | int n => by
    rw [read?, if_neg (write_int_ne_imaginary n), unwrap_write_int, Numeral.read?_write]
    rfl

/-- Reading a written power gives the base and the exponent back. -/
theorem readPower?_writePower (he : e.Canonical) : readPower? (b.writePower e) = some (b, e) := by
  rw [writePower]
  split_ifs with h1
  · rw [readPower?, cut?_eq_none_iff.2 b.caret_notMem_write, h1]
    simp only [read?_write, Option.map_some]
  · rw [readPower?, cut?_append_cons _ b.caret_notMem_write]
    simp only [read?_write, Scalar.unwrap_writeExponent, Scalar.read_write he]
    rfl

/-- All powers of a list are read back. -/
theorem mapM_readPower? : ∀ {entries : List (Base × Scalar)},
    (∀ r ∈ entries, r.2.Canonical) →
      (entries.map fun r => r.1.writePower r.2).mapM readPower? = some entries
  | [], _ => rfl
  | r :: rest, h => by
    rw [List.map_cons, List.mapM_cons, readPower?_writePower (h r List.mem_cons_self),
      mapM_readPower? fun q hq => h q (List.mem_cons_of_mem _ hq)]
    rfl

end Base

/-! ## What powers look like -/

/-- A text with the imaginary unit or an exponent in it. -/
def ShowsPower (cs : List Char) : Prop :=
  'I' ∈ cs ∨ '^' ∈ cs

instance (cs : List Char) : Decidable (ShowsPower cs) :=
  inferInstanceAs (Decidable (_ ∨ _))

/-- The text could be that of a power : it shows one, it does not start with a sign, and it is a
single factor. -/
structure PowerText (cs : List Char) : Prop where
  showsPower : ShowsPower cs
  head : cs.head? ≠ some '-'
  times_notMem : '*' ∉ cs

namespace Base

theorem head?_write_ne : ∀ b : Base, b.write.head? ≠ some '-'
  | imaginary => by decide
  | int n => by
    rw [write]
    split_ifs with hneg
    · rw [List.cons_append, List.head?_cons]
      decide
    · obtain ⟨m, rfl⟩ := Int.eq_ofNat_of_zero_le (not_lt.1 hneg)
      intro h
      obtain ⟨cs, hcs⟩ := List.head?_eq_some_iff.1 h
      exact Numeral.toDigits_ne_sign m cs hcs

theorem write_ne_nil (b : Base) : b.write ≠ [] := by
  intro h
  have hread := read?_write b
  rw [h] at hread
  cases hread

/-- The text of a kept power shows one : no integer keeps the exponent that is left out. -/
theorem showsPower_writePower (h : b.Keeps e) : ShowsPower (b.writePower e) := by
  rw [writePower]
  split_ifs with h1
  · cases b with
    | imaginary => exact .inl List.mem_cons_self
    | int n =>
      subst h1
      exact h.elim
  · exact .inr (List.mem_append_right _ List.mem_cons_self)

theorem head?_writePower_ne (b : Base) (e : Scalar) : (b.writePower e).head? ≠ some '-' := by
  rw [writePower]
  split_ifs
  · exact b.head?_write_ne
  · rw [List.head?_append_of_ne_nil _ b.write_ne_nil]
    exact b.head?_write_ne

theorem times_notMem_writePower (b : Base) (e : Scalar) : '*' ∉ b.writePower e := by
  have hb : '*' ∉ b.write := mt mem_of_mem_write (by decide)
  have he : '*' ∉ e.writeExponent := mt Scalar.mem_of_mem_writeExponent (by decide)
  rw [writePower]
  split_ifs
  · exact hb
  · simp [hb, he]

theorem powerText_writePower (h : b.Keeps e) : PowerText (b.writePower e) :=
  ⟨showsPower_writePower h, head?_writePower_ne b e, times_notMem_writePower b e⟩

end Base

/-! ## Factors -/

variable {a : Scalar} {powers : List (List Char)}

/-- The factors of a surd as texts, from its coefficient and the texts of its powers. -/
def factors (a : Scalar) : List (List Char) → List (List Char)
  | [] => [a.write]
  | power :: rest =>
    if a = -1 then ('-' :: power) :: rest
    else if a = 1 then power :: rest
    else a.write :: power :: rest

/-- The coefficient and the texts of the powers, from the factors as texts. -/
def splitFactors? : List (List Char) → Option (Scalar × List (List Char))
  | [] => none
  | first :: rest =>
    if ShowsPower first then
      if first.head? = some '-' then some (-1, first.tail :: rest) else some (1, first :: rest)
    else (Scalar.read first).toOption.map fun a => (a, rest)

theorem Scalar.not_showsPower_write (a : Scalar) : ¬ ShowsPower a.write := by
  rintro (h | h) <;> exact absurd (mem_of_mem_write h) (by decide)

/-- The factors tell the coefficient from the powers. -/
theorem splitFactors?_factors (ha : a.Canonical) (hpowers : ∀ power ∈ powers, PowerText power) :
    splitFactors? (factors a powers) = some (a, powers) := by
  -- A coefficient other than one and minus one, or without powers, is a factor of its own.
  have hscalar : ∀ rest, splitFactors? (a.write :: rest) = some (a, rest) := fun rest => by
    rw [splitFactors?, if_neg a.not_showsPower_write, Scalar.read_write ha]
    rfl
  cases powers with
  | nil => exact hscalar []
  | cons power rest =>
    obtain ⟨hshows, hhead, -⟩ := hpowers power List.mem_cons_self
    rw [factors]
    split_ifs with hneg hone
    · have hsigned : ShowsPower ('-' :: power) :=
        hshows.imp (List.mem_cons_of_mem _) (List.mem_cons_of_mem _)
      rw [splitFactors?, if_pos hsigned, if_pos List.head?_cons, List.tail_cons, hneg]
    · rw [splitFactors?, if_pos hshows, if_neg hhead, hone]
    · exact hscalar (power :: rest)

theorem factors_ne_nil (a : Scalar) : ∀ powers : List (List Char), factors a powers ≠ []
  | [] => List.cons_ne_nil _ _
  | power :: rest => by
    rw [factors]
    split_ifs <;> exact List.cons_ne_nil _ _

theorem times_notMem_factors (hpowers : ∀ power ∈ powers, '*' ∉ power) :
    ∀ factor ∈ factors a powers, '*' ∉ factor := by
  have ha : '*' ∉ a.write := mt Scalar.mem_of_mem_write (by decide)
  cases powers with
  | nil => simpa [factors] using ha
  | cons power rest =>
    rw [List.forall_mem_cons] at hpowers
    rw [factors]
    split_ifs
    · simpa using hpowers
    · simpa using hpowers
    · simpa [ha] using hpowers

/-! ## Surds -/

namespace Surd

variable {x y : Surd}

/-- The texts of the powers of a surd. -/
def powerTexts (x : Surd) : List (List Char) :=
  x.powers.entries.map fun r => r.1.writePower r.2

theorem Canonical.powerText (hx : x.Canonical) : ∀ power ∈ x.powerTexts, PowerText power := by
  intro power hpower
  obtain ⟨r, hr, rfl⟩ := List.mem_map.1 hpower
  exact Base.powerText_writePower (hx.keeps r hr)

/-- A surd is written as its factors with `*` between them. -/
theorem Canonical.write_eq : ∀ {x : Surd}, x.Canonical →
    x.write = List.intercalate ['*'] (factors x.coef x.powerTexts)
  | scalar a, _ => List.intercalate_singleton.symm
  | imaginary, _ => rfl
  | root n r, _ => List.intercalate_singleton.symm
  | product a p, h => by
    obtain ⟨r, rest, hentries⟩ : ∃ r rest, p.entries = r :: rest :=
      List.exists_cons_of_ne_nil fun hnil => h.powers_ne_empty (Exponents.ext hnil)
    simp only [write, coef, powerTexts, powers, hentries, List.map_cons]
    rw [factors]
    split_ifs
    · exact List.intercalate_cons_cons_left.symm
    · rfl
    · rfl

/-- The coefficient and the powers of the surd that a text writes. -/
def decode? (cs : List Char) : Option (Scalar × List (Base × Scalar)) := do
  let (a, powers) ← splitFactors? (cs.splitOn '*')
  return (a, ← powers.mapM Base.readPower?)

/-- The text of a canonical surd tells its coefficient and its powers. -/
theorem decode?_write (hx : x.Canonical) : decode? x.write = some (x.coef, x.powers.entries) := by
  have hsplit : x.write.splitOn '*' = factors x.coef x.powerTexts := by
    rw [hx.write_eq]
    exact List.splitOn_intercalate '*'
      (times_notMem_factors fun power hpower => (hx.powerText power hpower).times_notMem)
      (factors_ne_nil _ _)
  rw [decode?, hsplit, splitFactors?_factors hx.coef_canonical hx.powerText]
  simp only [powerTexts, Option.bind_eq_bind, Option.bind_some,
    Base.mapM_readPower? hx.powers_canonical]
  rfl

example : decode? "-2^(1/2)*(-3)^(2/5)".toList =
    some (-1, [(.int 2, .frac ⟨1, 2⟩), (.int (-3), .frac ⟨2, 5⟩)]) := by
  decide

theorem write_injective (hx : x.Canonical) (hy : y.Canonical) (h : x.write = y.write) : x = y := by
  have hdecode := decode?_write hx
  rw [h, decode?_write hy] at hdecode
  obtain ⟨hcoef, hentries⟩ := Prod.mk.inj (Option.some.inj hdecode)
  exact hx.ext hy hcoef.symm (Exponents.ext hentries.symm)

/-- Two surds that runs make are written alike only if they are the same. -/
theorem toString_inj (hx : x.Reachable) (hy : y.Reachable) : toString x = toString y ↔ x = y := by
  constructor
  · intro h
    exact write_injective hx.canonical hy.canonical (String.ofList_injective h)
  · rintro rfl
    rfl

/-- Minus the root of two and the root of minus two. -/
theorem toString_inj_of_signs :
    let x := product (-1) (.single (.int 2) (.frac ⟨1, 2⟩))
    let y := root (-2) ⟨1, 2⟩
    x.Reachable ∧ y.Reachable ∧ toString x ≠ toString y := by
  intro x y
  have hx : x.Reachable := ⟨[.power (.whole 2) (.frac ⟨1, 2⟩), .neg 0], by decide, by decide⟩
  have hy : y.Reachable :=
    ⟨[.ofPowers 1 (.single (.int (-2)) (.frac ⟨1, 2⟩))], by decide, by decide⟩
  exact ⟨hx, hy, fun h => absurd ((toString_inj hx hy).1 h) (by decide)⟩

end Surd

end Surds
