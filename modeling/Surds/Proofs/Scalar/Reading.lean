import Surds.Proofs.Numeral
import Surds.Proofs.Scalar.Value
import Surds.Proofs.Text.Trim
import Surds.Scalar.Text

/-!
# Reading scalars

`Reads t r` gives the answer `r` to a text `t` without blanks at its ends : an integer, or the
quotient of the integers before and after the first `/`, or else the failure that the text deserves.
The numerals come from `Numeral.grammar`, and the quotient is the canonical scalar of its value.

Every text has an answer (`exists_reads`), and reading finds it (`parse_eq_iff`) : so what is
accepted, what it stands for and how the rest is refused is all given by the grammar.
-/

namespace Surds.Scalar

open Numeral Text

/-- The answer to a text without blanks at its ends. -/
inductive Reads : List Char → Except Failure Scalar → Prop
  /-- A numeral stands for an integer. -/
  | whole {t : List Char} (hmark : '/' ∉ t) (ht : t ∈ grammar.matches') :
      Reads t (.ok (.whole (Numeral.value t)))
  /-- Other texts without `/` are refused. -/
  | badInteger {t : List Char} (hmark : '/' ∉ t) (ht : t ∉ grammar.matches') :
      Reads t (.error .badInteger)
  /-- Two numerals with `/` between them, and blanks around it, stand for their quotient. -/
  | quotient {l r above below : List Char} {a : Scalar} (hmark : '/' ∉ l)
      (habove : Trims l above) (hbelow : Trims r below) (hn : above ∈ grammar.matches')
      (hd : below ∈ grammar.matches') (h0 : Numeral.value below ≠ 0) (ha : a.Canonical)
      (hvalue : a.value = Numeral.value above / Numeral.value below) :
      Reads (l ++ '/' :: r) (.ok a)
  /-- A quotient by zero is refused, -/
  | divisionByZero {l r above below : List Char} (hmark : '/' ∉ l) (habove : Trims l above)
      (hbelow : Trims r below) (hn : above ∈ grammar.matches') (hd : below ∈ grammar.matches')
      (h0 : Numeral.value below = 0) : Reads (l ++ '/' :: r) (.error .divisionByZero)
  /-- and so is anything else around the `/`. -/
  | badFraction {l r above below : List Char} (hmark : '/' ∉ l) (habove : Trims l above)
      (hbelow : Trims r below) (h : above ∉ grammar.matches' ∨ below ∉ grammar.matches') :
      Reads (l ++ '/' :: r) (.error .badFraction)

/-- Every text has an answer. -/
theorem exists_reads (t : List Char) : ∃ r, Reads t r := by
  by_cases hmark : '/' ∈ t
  · obtain ⟨l, r, rfl, hl⟩ := List.eq_append_cons_of_mem hmark
    have habove := trims_trim l
    have hbelow := trims_trim r
    by_cases hn : trim l ∈ grammar.matches'
    · by_cases hd : trim r ∈ grammar.matches'
      · by_cases h0 : Numeral.value (trim r) = 0
        · exact ⟨_, .divisionByZero hl habove hbelow hn hd h0⟩
        · exact ⟨_, .quotient hl habove hbelow hn hd h0 (canonical_ofRat _) (value_ofRat _)⟩
      · exact ⟨_, .badFraction hl habove hbelow (.inr hd)⟩
    · exact ⟨_, .badFraction hl habove hbelow (.inl hn)⟩
  · by_cases ht : t ∈ grammar.matches'
    · exact ⟨_, .whole hmark ht⟩
    · exact ⟨_, .badInteger hmark ht⟩

variable {s l r above below : List Char} {x : Except Failure Scalar}

theorem read_of_notMem (h : '/' ∉ trim s) : read s = readWhole (trim s) := by
  rw [read_eq_match, cut?_eq_none_iff.2 h]

theorem read_of_eq_append (hmark : '/' ∉ l) (h : trim s = l ++ '/' :: r) :
    read s = readQuotient l r := by
  rw [read_eq_match, h, cut?_append_cons r hmark]

/-- The quotient of two numerals. -/
theorem readQuotient_of_mem (habove : Trims l above) (hbelow : Trims r below)
    (hn : above ∈ grammar.matches') (hd : below ∈ grammar.matches') :
    readQuotient l r = quotient? (Numeral.value above) (Numeral.value below) := by
  rw [readQuotient_eq_match, habove.trim_eq, hbelow.trim_eq, read?_eq_some_iff.2 ⟨hn, rfl⟩,
    read?_eq_some_iff.2 ⟨hd, rfl⟩]

theorem readQuotient_of_notMem (habove : Trims l above) (hbelow : Trims r below)
    (h : above ∉ grammar.matches' ∨ below ∉ grammar.matches') :
    readQuotient l r = .error .badFraction := by
  rw [readQuotient_eq_match, habove.trim_eq, hbelow.trim_eq]
  rcases h with hn | hd
  · rw [read?_eq_none_iff.2 hn]
  · rw [read?_eq_none_iff.2 hd]
    cases read? above <;> rfl

/-- Reading a text gives its answer. -/
theorem Reads.read_eq (h : Reads (trim s) x) : read s = x := by
  generalize htrim : trim s = t at h
  cases h with
  | whole hmark ht =>
    rw [read_of_notMem (htrim ▸ hmark), htrim, readWhole, read?_eq_some_iff.2 ⟨ht, rfl⟩]
  | badInteger hmark ht =>
    rw [read_of_notMem (htrim ▸ hmark), htrim, readWhole, read?_eq_none_iff.2 ht]
  | quotient hmark habove hbelow hn hd h0 ha hvalue =>
    rw [read_of_eq_append hmark htrim, readQuotient_of_mem habove hbelow hn hd, quotient?_eq,
      if_neg h0, ← hvalue, ha.ofRat_value]
  | divisionByZero hmark habove hbelow hn hd h0 =>
    rw [read_of_eq_append hmark htrim, readQuotient_of_mem habove hbelow hn hd, quotient?_eq,
      if_pos h0]
  | badFraction hmark habove hbelow h =>
    rw [read_of_eq_append hmark htrim, readQuotient_of_notMem habove hbelow h]

theorem read_eq_iff : read s = x ↔ Reads (trim s) x := by
  refine ⟨?_, Reads.read_eq⟩
  rintro rfl
  obtain ⟨y, hy⟩ := exists_reads (trim s)
  rwa [hy.read_eq]

/-- What is read is canonical, whether or not it was written in lowest terms. -/
theorem canonical_of_read {v : Scalar} (h : read s = .ok v) : v.Canonical := by
  rw [read_eq_iff] at h
  generalize trim s = t at h
  cases h with
  | whole => trivial
  | quotient _ _ _ _ _ _ ha => exact ha

/-- A string is answered as the grammar says, once the blanks at its ends are taken off. -/
theorem parse_eq_iff (s : String) : parse s = x ↔ ∃ t, Trims s.toList t ∧ Reads t x := by
  simp only [trims_iff, exists_eq_left']
  exact read_eq_iff

end Surds.Scalar
