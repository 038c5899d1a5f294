import Mathlib.Computability.RegularExpressions
import Mathlib.Data.Nat.Digits.Lemmas
import Mathlib.Tactic.IntervalCases
import Surds.Numeral

/-!
# The language of numerals

`grammar` is the regular expression of the texts that write an integer : a digit followed by digits
and gaps, with one `-` in front if there is any, or a zero written with two signs. `value` is what
such a text writes. Reading finds the value of every text of the language and refuses all other
texts (`read?_eq_some_iff`, `read?_eq_none_iff`).

The two readers share the signs, and the cases are how many the text starts with. Without `-` what
is read is never negative, and a `+` is refused afterwards (`read?_of_no_sign`). One `-` is taken
off and negates the number (`read?_of_sign`). After a second one the reader of integers makes a
negative number, which is refused, or zero (`read?_of_two_signs`).

An integer is written by a text of the language that has its value (`read?_write`).
-/

namespace Surds.Numeral

open RegularExpression

variable {c : Char} {cs : List Char} {n : ℕ} {k : ℤ}

/-! ## The grammar -/

/-- One of the characters of a list. -/
def oneOf (chars : List Char) : RegularExpression Char :=
  (chars.map char).sum

/-- The decimal digits. -/
def digits : List Char :=
  ['0', '1', '2', '3', '4', '5', '6', '7', '8', '9']

/-- A digit, and then digits and gaps. -/
def unsigned : RegularExpression Char :=
  oneOf digits * (oneOf ('_' :: digits)).star

/-- A numeral without sign or with one, or a zero with two. -/
def grammar : RegularExpression Char :=
  (1 + char '-') * unsigned + char '-' * (char '-' * (char '0' * (oneOf ['0', '_']).star))

/-- The number with the digits of a text in base ten, the last one for the units. -/
def magnitude (cs : List Char) : ℕ :=
  Nat.ofDigits 10 ((cs.filter Char.isDigit).reverse.map fun c => c.toNat - '0'.toNat)

/-- The integer that a text of the grammar writes. It is negative after a single sign. -/
def value (cs : List Char) : ℤ :=
  if ['-'] <+: cs ∧ ¬ ['-', '-'] <+: cs then -magnitude cs else magnitude cs

/-! ## Membership -/

theorem mem_oneOf_iff {chars : List Char} :
    cs ∈ (oneOf chars).matches' ↔ ∃ c ∈ chars, cs = [c] := by
  induction chars with
  | nil => simp [oneOf, Language.notMem_zero]
  | cons d chars ih =>
    rw [oneOf, List.map_cons, List.sum_cons, matches'_add, Language.mem_add, ← oneOf, ih,
      List.exists_mem_cons_iff]
    exact Iff.rfl

theorem mem_star_oneOf_iff {chars : List Char} :
    cs ∈ (oneOf chars).star.matches' ↔ ∀ c ∈ cs, c ∈ chars := by
  rw [matches'_star, Language.mem_kstar]
  constructor
  · rintro ⟨parts, rfl, hparts⟩ c hc
    obtain ⟨part, hpart, hc⟩ := List.mem_flatten.1 hc
    obtain ⟨d, hd, rfl⟩ := mem_oneOf_iff.1 (hparts part hpart)
    rwa [List.mem_singleton.1 hc]
  · intro h
    refine ⟨cs.map fun c => [c], ?_, fun part hpart => ?_⟩
    · rw [← List.flatMap_def, List.flatMap_singleton']
    · obtain ⟨c, hc, rfl⟩ := List.mem_map.1 hpart
      exact mem_oneOf_iff.2 ⟨c, h c hc, rfl⟩

theorem mem_char_mul_iff {p : RegularExpression Char} :
    cs ∈ (char c * p).matches' ↔ ∃ ds ∈ p.matches', cs = c :: ds := by
  rw [matches'_mul, Language.mem_mul]
  constructor
  · rintro ⟨l, hl, r, hr, rfl⟩
    rw [show l = [c] from hl]
    exact ⟨r, hr, rfl⟩
  · rintro ⟨ds, hds, rfl⟩
    exact ⟨[c], rfl, ds, hds, rfl⟩

theorem isDigit_iff : c.isDigit ↔ c ∈ digits := by
  constructor
  · intro h
    obtain ⟨hlow, hhigh⟩ : 48 ≤ c.toNat ∧ c.toNat ≤ 57 := by
      simpa [Char.isDigit, UInt32.le_iff_toNat_le] using h
    have hc : c = Char.ofNat c.toNat := (Char.ofNat_toNat c).symm
    interval_cases c.toNat <;> rw [hc] <;> decide
  -- `decide` on the implication itself would go through all characters.
  · exact List.all_eq_true.1 (by decide : digits.all Char.isDigit = true) c

theorem isDigitOrGap_iff : isDigitOrGap c ↔ c ∈ '_' :: digits := by
  rw [isDigitOrGap, Bool.or_eq_true, isDigit_iff, decide_eq_true_iff, List.mem_cons, or_comm]

theorem mem_unsigned_iff :
    cs ∈ unsigned.matches' ↔ ∃ c ds, cs = c :: ds ∧ c.isDigit ∧ ds.all isDigitOrGap := by
  rw [unsigned, matches'_mul, Language.mem_mul]
  simp only [mem_oneOf_iff, mem_star_oneOf_iff, isDigit_iff, List.all_eq_true, isDigitOrGap_iff]
  constructor
  · rintro ⟨_, ⟨c, hc, rfl⟩, ds, hds, rfl⟩
    exact ⟨c, ds, rfl, hc, hds⟩
  · rintro ⟨c, ds, rfl, hc, hds⟩
    exact ⟨[c], ⟨c, hc, rfl⟩, ds, hds, rfl⟩

/-- The three kinds of numerals. -/
theorem mem_grammar_iff :
    cs ∈ grammar.matches' ↔ cs ∈ unsigned.matches' ∨ (∃ ds ∈ unsigned.matches', cs = '-' :: ds) ∨
      ∃ ds, (∀ c ∈ ds, c ∈ ['0', '_']) ∧ cs = '-' :: '-' :: '0' :: ds := by
  rw [grammar, matches'_add, Language.mem_add, matches'_mul, matches'_add, matches'_epsilon,
    add_mul, one_mul, Language.mem_add, ← matches'_mul, or_assoc]
  simp only [mem_char_mul_iff, mem_star_oneOf_iff]
  refine or_congr_right (or_congr_right ?_)
  constructor
  · rintro ⟨_, ⟨_, ⟨ds, hds, rfl⟩, rfl⟩, rfl⟩
    exact ⟨ds, hds, rfl⟩
  · rintro ⟨ds, hds, rfl⟩
    exact ⟨_, ⟨_, ⟨ds, hds, rfl⟩, rfl⟩, rfl⟩

/-! ## Values -/

theorem ofDigitChars_filter (cs : List Char) :
    Nat.ofDigitChars 10 (cs.filter Char.isDigit) 0 = magnitude cs := by
  rw [magnitude, Nat.ofDigits_eq_foldr, List.map_reverse, List.foldr_reverse, List.foldl_map,
    Nat.ofDigitChars]
  simp only [add_comm, Nat.cast_id]

theorem magnitude_cons_of_not_isDigit (hc : ¬ c.isDigit) (cs : List Char) :
    magnitude (c :: cs) = magnitude cs := by
  rw [magnitude, List.filter_cons_of_neg hc, magnitude]

/-- A text writes zero when all its digits are zeros. -/
theorem magnitude_eq_zero_iff : magnitude cs = 0 ↔ ∀ c ∈ cs, c.isDigit → c = '0' := by
  constructor
  · intro h c hc hdigit
    have hzero : c.toNat - '0'.toNat = 0 := Nat.digits_zero_of_eq_zero (by decide) h _ <|
      List.mem_map.2 ⟨c, List.mem_reverse.2 (List.mem_filter.2 ⟨hc, hdigit⟩), rfl⟩
    have hdigits : ∀ d ∈ digits, d.toNat - '0'.toNat = 0 → d = '0' := by
      simp [digits]
    exact hdigits c (isDigit_iff.1 hdigit) hzero
  · intro h
    have hrep : ((cs.filter Char.isDigit).reverse.map fun c => c.toNat - '0'.toNat) =
        List.replicate (cs.filter Char.isDigit).length 0 := by
      refine List.eq_replicate_iff.2 ⟨by simp, fun b hb => ?_⟩
      obtain ⟨c, hc, rfl⟩ := List.mem_map.1 hb
      obtain ⟨hc, hdigit⟩ := List.mem_filter.1 (List.mem_reverse.1 hc)
      rw [h c hc hdigit, Nat.sub_self]
    rw [magnitude, hrep, Nat.ofDigits_replicate_zero]

/-! ## Reading -/

/-- Digits and gaps are read as numerals without sign. -/
theorem readDigits?_eq_some_iff :
    readDigits? cs = some n ↔ cs ∈ unsigned.matches' ∧ magnitude cs = n := by
  rw [mem_unsigned_iff]
  cases cs with
  | nil => simp [readDigits?]
  | cons c cs =>
    have hfirst : c ≠ '_' ∧ isDigitOrGap c ↔ c.isDigit := by
      rw [isDigitOrGap, Bool.or_eq_true, decide_eq_true_iff, and_or_left, not_and_self_iff,
        or_false, and_iff_right_iff_imp]
      rintro hdigit rfl
      exact absurd hdigit (by decide)
    simp only [readDigits?, List.cons_ne_nil, false_or, List.head?_cons, Option.some.injEq,
      List.all_cons, Bool.and_eq_true, ofDigitChars_filter, Option.ite_none_left_eq_some,
      Option.ite_none_right_eq_some]
    rw [← and_assoc, ← and_assoc, hfirst]
    refine and_congr_left fun _ => ⟨fun h => ⟨c, cs, rfl, h⟩, ?_⟩
    rintro ⟨d, ds, heq, h⟩
    obtain ⟨rfl, rfl⟩ := List.cons.inj heq
    exact h

/-- A text with a character in front that is neither digit nor gap is not read. -/
theorem readDigits?_cons_eq_none (hc : isDigitOrGap c = false) (cs : List Char) :
    readDigits? (c :: cs) = none := by
  simp [readDigits?, hc]

/-- The reader of integers takes one `-` off. -/
theorem readInteger?_of_sign (cs : List Char) :
    readInteger? ('-' :: cs) = (readDigits? cs).map fun n : ℕ => -(n : ℤ) := by
  by_cases hplus : cs.head? = some '+'
  -- Neither `-+` nor `+` is the start of digits.
  · obtain ⟨ds, rfl⟩ := List.head?_eq_some_iff.1 hplus
    simp [readInteger?, readNatural?, dropSign, readDigits?_cons_eq_none,
      show isDigitOrGap '-' = false from rfl, show isDigitOrGap '+' = false from rfl]
  · simp [readInteger?, readNatural?, dropSign, hplus]

/-- Without a sign the reader of integers reads digits. -/
theorem readInteger?_of_no_sign (hminus : cs.head? ≠ some '-') (hplus : cs.head? ≠ some '+') :
    readInteger? cs = (readDigits? cs).map fun n : ℕ => (n : ℤ) := by
  simp [readInteger?, readNatural?, dropSign, hminus, hplus]

/-- No numeral without sign starts with one. -/
theorem notMem_unsigned : '-' :: cs ∉ unsigned.matches' := by
  rw [mem_unsigned_iff]
  rintro ⟨c, ds, heq, hdigit, -⟩
  rw [← (List.cons.inj heq).1] at hdigit
  exact absurd hdigit (by decide)

/-- Two signs may stand in front of a zero, however it is written. -/
theorem zero_iff : (cs ∈ unsigned.matches' ∧ magnitude cs = 0) ↔
    ∃ ds, (∀ c ∈ ds, c ∈ ['0', '_']) ∧ cs = '0' :: ds := by
  rw [mem_unsigned_iff, magnitude_eq_zero_iff]
  constructor
  · rintro ⟨⟨c, ds, rfl, hc, hds⟩, hzero⟩
    refine ⟨ds, fun d hd => ?_, by rw [hzero c List.mem_cons_self hc]⟩
    rcases Bool.or_eq_true_iff.1 (List.all_eq_true.1 hds d hd) with hdigit | hgap
    · simp [hzero d (List.mem_cons_of_mem _ hd) hdigit]
    · simp [of_decide_eq_true hgap]
  · rintro ⟨ds, hds, rfl⟩
    have hdigits : ∀ c ∈ ['0', '_'], isDigitOrGap c ∧ (c.isDigit → c = '0') := by
      simp [isDigitOrGap]
    refine ⟨⟨'0', ds, rfl, by decide, List.all_eq_true.2 fun d hd => (hdigits d (hds d hd)).1⟩, ?_⟩
    intro c hc
    rcases List.mem_cons.1 hc with rfl | hc
    · exact fun _ => rfl
    · exact (hdigits c (hds c hc)).2

theorem mem_grammar_of_two_signs :
    '-' :: '-' :: cs ∈ grammar.matches' ↔ cs ∈ unsigned.matches' ∧ magnitude cs = 0 := by
  rw [mem_grammar_iff, or_iff_right notMem_unsigned, or_iff_right, zero_iff]
  · simp only [List.cons.injEq, true_and]
  · rintro ⟨ds, hds, heq⟩
    rw [← (List.cons.inj heq).2] at hds
    exact notMem_unsigned hds

theorem mem_grammar_of_sign (hcs : ∀ ds, cs ≠ '-' :: ds) :
    '-' :: cs ∈ grammar.matches' ↔ cs ∈ unsigned.matches' := by
  rw [mem_grammar_iff, or_iff_right notMem_unsigned, or_iff_left]
  · simp only [List.cons.injEq, true_and, exists_eq_right']
  · rintro ⟨ds, -, heq⟩
    exact hcs _ (List.cons.inj heq).2

theorem mem_grammar_of_no_sign (hcs : ∀ ds, cs ≠ '-' :: ds) :
    cs ∈ grammar.matches' ↔ cs ∈ unsigned.matches' := by
  rw [mem_grammar_iff, or_iff_left]
  rintro (⟨ds, -, heq⟩ | ⟨ds, -, heq⟩)
  · exact hcs _ heq
  · exact hcs _ heq

theorem value_of_two_signs (cs : List Char) : value ('-' :: '-' :: cs) = magnitude cs := by
  rw [value, if_neg (by simp), magnitude_cons_of_not_isDigit (by decide),
    magnitude_cons_of_not_isDigit (by decide)]

theorem value_of_sign (hcs : ∀ ds, cs ≠ '-' :: ds) : value ('-' :: cs) = -magnitude cs := by
  rw [value, if_pos, magnitude_cons_of_not_isDigit (by decide)]
  refine ⟨⟨cs, rfl⟩, ?_⟩
  rintro ⟨ds, heq⟩
  exact hcs ds (List.cons.inj heq).2.symm

theorem value_of_no_sign (hcs : ∀ ds, cs ≠ '-' :: ds) : value cs = magnitude cs := by
  rw [value, if_neg]
  rintro ⟨⟨ds, heq⟩, -⟩
  exact hcs ds heq.symm

/-- What the reader of integers makes of a text without a `-` is not negative, and is refused when
the text starts with a `+`. -/
theorem bind_readInteger? (hcs : ∀ ds, cs ≠ '-' :: ds) (f : ℤ → ℤ) :
    ((readInteger? cs).bind fun k => if k < 0 ∨ cs.head? = some '+' then none else some (f k)) =
      (readDigits? cs).map fun n : ℕ => f n := by
  have hminus : cs.head? ≠ some '-' := fun h => by
    obtain ⟨ds, rfl⟩ := List.head?_eq_some_iff.1 h
    exact hcs ds rfl
  by_cases hplus : cs.head? = some '+'
  · obtain ⟨ds, rfl⟩ := List.head?_eq_some_iff.1 hplus
    rw [readDigits?_cons_eq_none rfl]
    simp
  · rw [readInteger?_of_no_sign hminus hplus]
    cases readDigits? cs with
    | none => rfl
    | some n => simp [hplus]

/-- A second sign makes a number negative, which is refused, unless the number is zero. -/
theorem read?_of_two_signs (cs : List Char) :
    read? ('-' :: '-' :: cs) = (readDigits? cs).bind fun n => if n = 0 then some 0 else none := by
  have hread : read? ('-' :: '-' :: cs) = (readInteger? ('-' :: cs)).bind fun k =>
      if k < 0 ∨ ('-' :: cs).head? = some '+' then none else some (-k) := rfl
  rw [hread, readInteger?_of_sign]
  cases readDigits? cs with
  | none => rfl
  | some n =>
    rcases eq_or_ne n 0 with rfl | hn
    · rfl
    · simp [hn]

theorem read?_of_sign (hcs : ∀ ds, cs ≠ '-' :: ds) :
    read? ('-' :: cs) = (readDigits? cs).map fun n : ℕ => -(n : ℤ) := by
  have hread : read? ('-' :: cs) = (readInteger? cs).bind fun k =>
      if k < 0 ∨ cs.head? = some '+' then none else some (-k) := rfl
  exact hread.trans (bind_readInteger? hcs Neg.neg)

theorem read?_of_no_sign (hcs : ∀ ds, cs ≠ '-' :: ds) :
    read? cs = (readDigits? cs).map fun n : ℕ => (n : ℤ) := by
  have hread : read? cs = (readInteger? cs).bind fun k =>
      if k < 0 ∨ cs.head? = some '+' then none else some k := by
    unfold read?
    split
    rename_i heq
    split at heq
    · exact absurd rfl (hcs _)
    · obtain ⟨rfl, rfl⟩ := Prod.mk.inj heq
      rfl
  exact hread.trans (bind_readInteger? hcs id)

/-- Reading accepts the language of numerals and finds their values. -/
theorem read?_eq_some_iff : read? cs = some k ↔ cs ∈ grammar.matches' ∧ value cs = k := by
  by_cases hsign : ∃ ds, cs = '-' :: ds
  · obtain ⟨ds, rfl⟩ := hsign
    by_cases htwo : ∃ es, ds = '-' :: es
    · obtain ⟨es, rfl⟩ := htwo
      rw [read?_of_two_signs, mem_grammar_of_two_signs, value_of_two_signs]
      simp only [Option.bind_eq_some_iff, readDigits?_eq_some_iff, Option.ite_none_right_eq_some]
      grind
    · have hds := not_exists.1 htwo
      rw [read?_of_sign hds, mem_grammar_of_sign hds, value_of_sign hds]
      simp [readDigits?_eq_some_iff]
  · have hcs := not_exists.1 hsign
    rw [read?_of_no_sign hcs, mem_grammar_of_no_sign hcs, value_of_no_sign hcs]
    simp [readDigits?_eq_some_iff]

theorem read?_eq_none_iff : read? cs = none ↔ cs ∉ grammar.matches' := by
  rw [Option.eq_none_iff_forall_ne_some]
  simp only [ne_eq, read?_eq_some_iff, not_and]
  exact ⟨fun h hmem => h _ hmem rfl, fun h k hmem => absurd hmem h⟩

/-! ## Writing -/

theorem isDigit_of_mem_toDigits (h : c ∈ Nat.toDigits 10 n) : c.isDigit :=
  Nat.isDigit_of_mem_toDigits (by decide) (by decide) h

theorem toDigits_ne_sign (n : ℕ) (cs : List Char) : Nat.toDigits 10 n ≠ '-' :: cs := by
  intro h
  have hmem : '-' ∈ Nat.toDigits 10 n := h ▸ List.mem_cons_self
  exact absurd (isDigit_of_mem_toDigits hmem) (by decide)

/-- The digits of a number are a numeral that writes it. -/
theorem toDigits_mem_unsigned (n : ℕ) :
    Nat.toDigits 10 n ∈ unsigned.matches' ∧ magnitude (Nat.toDigits 10 n) = n := by
  have hdigits : ∀ c ∈ Nat.toDigits 10 n, c.isDigit := fun c hc => isDigit_of_mem_toDigits hc
  constructor
  · obtain ⟨c, ds, heq⟩ := List.exists_cons_of_ne_nil (Nat.toDigits_ne_nil (n := n) (b := 10))
    rw [heq] at hdigits ⊢
    refine mem_unsigned_iff.2 ⟨c, ds, rfl, hdigits c List.mem_cons_self, ?_⟩
    refine List.all_eq_true.2 fun d hd => Bool.or_eq_true_iff.2 (.inl ?_)
    exact hdigits d (List.mem_cons_of_mem _ hd)
  · rw [← ofDigitChars_filter, List.filter_eq_self.2 hdigits]
    exact Nat.ofDigitChars_toDigits (by decide) (by decide)

/-- A written integer consists of digits, after a sign if it is negative. -/
theorem mem_of_mem_write (h : c ∈ write k) : c ∈ '-' :: digits := by
  cases k with
  | ofNat n => exact List.mem_cons_of_mem _ (isDigit_iff.1 (isDigit_of_mem_toDigits h))
  | negSucc n =>
    rcases List.mem_cons.1 h with rfl | h
    · exact List.mem_cons_self
    · exact List.mem_cons_of_mem _ (isDigit_iff.1 (isDigit_of_mem_toDigits h))

/-- Reading a written integer gives the integer back. -/
theorem read?_write : ∀ k : ℤ, read? (write k) = some k
  | .ofNat n => by
    obtain ⟨hmem, hvalue⟩ := toDigits_mem_unsigned n
    rw [write, read?_eq_some_iff, mem_grammar_of_no_sign (toDigits_ne_sign n),
      value_of_no_sign (toDigits_ne_sign n), hvalue]
    exact ⟨hmem, rfl⟩
  | .negSucc n => by
    obtain ⟨hmem, hvalue⟩ := toDigits_mem_unsigned (n + 1)
    rw [write, read?_eq_some_iff, mem_grammar_of_sign (toDigits_ne_sign (n + 1)),
      value_of_sign (toDigits_ne_sign (n + 1)), hvalue]
    exact ⟨hmem, rfl⟩

end Surds.Numeral
