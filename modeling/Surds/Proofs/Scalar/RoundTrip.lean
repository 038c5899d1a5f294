import Surds.Calculator
import Surds.Proofs.Scalar.Reading

/-!
# Reading what was written

A written scalar consists of digits, signs and at most one `/` (`mem_of_mem_write`), so blanks
around it are told apart from it, and the `/` is where it is cut. Reading it, with any blanks at its
ends, gives the scalar back if it is canonical (`parse_append_toString`) : the quotient of numerator
and denominator is the scalar with that value.

It follows that canonical scalars are not written alike, and that an answer of the calculator to a
number is its own answer.
-/

namespace Surds

open Text

namespace Scalar

variable {a b : Scalar} {c : Char} {u v : List Char}

theorem mem_of_mem_write : ∀ {a : Scalar}, c ∈ a.write → c ∈ '/' :: '-' :: Numeral.digits
  | whole _, h => List.mem_cons_of_mem _ (Numeral.mem_of_mem_write h)
  | frac f, h => by
    rcases List.mem_append.1 h with hnum | hden
    · exact List.mem_cons_of_mem _ (Numeral.mem_of_mem_write hnum)
    · rcases List.mem_cons.1 hden with rfl | hden
      · exact List.mem_cons_self
      · exact List.mem_cons_of_mem _ (Numeral.mem_of_mem_write hden)

theorem not_isBlank_of_mem (h : c ∈ '/' :: '-' :: Numeral.digits) : ¬ isBlank c := by
  have hall : ('/' :: '-' :: Numeral.digits).all (fun c => !isBlank c) := by decide
  simpa using List.all_eq_true.1 hall c h

theorem trim_write (a : Scalar) : trim a.write = a.write :=
  trim_eq_self_of_no_blank fun _ hc => not_isBlank_of_mem (mem_of_mem_write hc)

theorem trim_numeral (k : ℤ) : trim (Numeral.write k) = Numeral.write k :=
  trim_write (whole k)

theorem slash_notMem_numeral (k : ℤ) : '/' ∉ Numeral.write k :=
  mt Numeral.mem_of_mem_write (by decide)

/-- Reading a written canonical scalar gives the scalar back. -/
theorem read_write : ∀ {a : Scalar}, a.Canonical → read a.write = .ok a
  | whole n, _ => by
    rw [read_eq_match, trim_write, write, cut?_eq_none_iff.2 (slash_notMem_numeral n)]
    simp only [readWhole, Numeral.read?_write]
  | frac f, hf => by
    rw [read_eq_match, trim_write, write, Fraction.write,
      cut?_append_cons _ (slash_notMem_numeral f.num)]
    simp only [readQuotient_eq_match, trim_numeral, Numeral.read?_write]
    exact Canonical.quotient?_num_den (a := frac f) hf

theorem read_append (hu : AllBlank u) (hv : AllBlank v) (s : List Char) :
    read (u ++ s ++ v) = read s := by
  rw [read_eq_match, trim_append hu hv, read_eq_match]

theorem write_injective (ha : a.Canonical) (hb : b.Canonical) (h : a.write = b.write) : a = b := by
  have hread := read_write ha
  rw [h, read_write hb] at hread
  exact (Except.ok.inj hread).symm

theorem toList_toString (a : Scalar) : (toString a).toList = a.write :=
  String.toList_ofList

/-- Reading a written canonical scalar, with blanks around it, gives the scalar back. -/
theorem parse_blank_append_toString (ha : a.Canonical) {u v : String} (hu : AllBlank u.toList)
    (hv : AllBlank v.toList) : parse (u ++ toString a ++ v) = .ok a := by
  rw [parse, String.toList_append, String.toList_append, toList_toString, read_append hu hv,
    read_write ha]

/-- What was read is read again from its text. -/
theorem parse_toString_of_parse {s : String} (h : parse s = .ok a) :
    parse (toString a) = .ok a := by
  rw [parse, toList_toString, read_write (canonical_of_read h)]

theorem toString_injective (ha : a.Canonical) (hb : b.Canonical) (h : toString a = toString b) :
    a = b :=
  write_injective ha hb (String.ofList_injective h)

end Scalar

/-! ## Answers of the calculator -/

theorem Scalar.caret_notMem_write (a : Scalar) : '^' ∉ a.write :=
  mt mem_of_mem_write (by decide)

theorem Calculator.evaluate_eq {line : List Char} (h : '^' ∉ line) :
    evaluate line = do return (← Scalar.read line).write := by
  rw [evaluate, cut?_eq_none_iff.2 h]

/-- The answer to a number is its own answer. -/
theorem Calculator.evaluate_answer {line answer : List Char} (hline : '^' ∉ line)
    (h : evaluate line = .ok answer) : evaluate answer = .ok answer := by
  rw [evaluate_eq hline] at h
  obtain ⟨a, hread, hanswer⟩ := bind_eq_ok_iff.1 h
  obtain rfl := Except.ok.inj hanswer
  rw [evaluate_eq a.caret_notMem_write, Scalar.read_write (Scalar.canonical_of_read hread)]
  rfl

/-! ## Reading and writing are inverse -/

namespace Scalar

/-- Canonical scalars are read back from their texts, whatever blanks are around them. So reading
once more what was read changes nothing, no two are written alike, and the answer of the calculator
to a line without `^` is its own answer. -/
theorem parse_append_toString :
    (∀ a : Scalar, a.Canonical → ∀ u v : String, AllBlank u.toList → AllBlank v.toList →
      parse (u ++ toString a ++ v) = .ok a) ∧
    (∀ (s : String) (a : Scalar), parse s = .ok a → parse (toString a) = .ok a) ∧
    (∀ a b : Scalar, a.Canonical → b.Canonical → a ≠ b → toString a ≠ toString b) ∧
    ∀ line answer : List Char, '^' ∉ line → Calculator.evaluate line = .ok answer →
      Calculator.evaluate answer = .ok answer :=
  ⟨fun _ ha _ _ => parse_blank_append_toString ha, fun _ _ => parse_toString_of_parse,
    fun _ _ ha hb hne h => hne (toString_injective ha hb h),
    fun _ _ => Calculator.evaluate_answer⟩

/-- A negative fraction between an ideographic space and a line feed, a fraction that is not in
lowest terms, and an integer that is not written like a fraction. -/
theorem parse_append_toString_of_blanks :
    parse ("\u3000" ++ toString (frac ⟨-3, 5⟩) ++ "\n") = .ok (frac ⟨-3, 5⟩) ∧
      parse (toString (frac ⟨-3, 5⟩)) = .ok (frac ⟨-3, 5⟩) ∧
      toString (frac ⟨-3, 5⟩) ≠ toString (whole (-3)) ∧
      Calculator.evaluate "-3/5".toList = .ok "-3/5".toList := by
  obtain ⟨hblank, hagain, hne, hanswer⟩ := parse_append_toString
  exact ⟨hblank _ (by decide) _ _ (by decide) (by decide), hagain "6 / -10" _ (by decide),
    hne _ _ (by decide) (by decide) (by decide), hanswer "6 / -10".toList _ (by decide) (by decide)⟩

end Scalar

end Surds
