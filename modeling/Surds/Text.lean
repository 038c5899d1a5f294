/-!
# Blanks, marks and lines

Input may be surrounded by blanks, the characters with the property `White_Space`. `trim` removes
them at both ends.

`cut?` splits a text around the first occurrence of a mark. It fails exactly when the mark does not
occur (`cut?_eq_none_iff`), and the two sides with the mark between them are the text again
(`eq_append_of_cut?`). `takeLine` takes the first line off a text, with the newline that ends it.
-/

namespace Surds.Text

/-! ## Blanks -/

/-- First and last code point of each run of characters with the property `White_Space`. -/
def blankRanges : List (Nat × Nat) :=
  [(0x0009, 0x000D), (0x0020, 0x0020), (0x0085, 0x0085), (0x00A0, 0x00A0), (0x1680, 0x1680),
    (0x2000, 0x200A), (0x2028, 0x2029), (0x202F, 0x202F), (0x205F, 0x205F), (0x3000, 0x3000)]

/-- A character is blank when its code point lies in one of the runs. -/
def isBlank (c : Char) : Bool :=
  blankRanges.any fun run => run.1 ≤ c.toNat && c.toNat ≤ run.2

/-- A text without the blanks at its start. -/
def trimLeft (cs : List Char) : List Char :=
  cs.dropWhile isBlank

/-- A text without the blanks at its end. -/
def trimRight (cs : List Char) : List Char :=
  (trimLeft cs.reverse).reverse

/-- A text without the blanks at its ends. -/
def trim (cs : List Char) : List Char :=
  trimRight (trimLeft cs)

/-! ## Marks -/

/-- The parts before and after the first `mark`, if there is one. -/
def cut? (mark : Char) : List Char → Option (List Char × List Char)
  | [] => none
  | c :: cs =>
    if c = mark then some ([], cs) else (cut? mark cs).map fun sides => (c :: sides.1, sides.2)

theorem cut?_eq_none_iff {mark : Char} : ∀ {cs : List Char}, cut? mark cs = none ↔ mark ∉ cs
  | [] => by simp [cut?]
  | c :: cs => by
    by_cases h : c = mark
    · simp [cut?, h]
    · have ih : cut? mark cs = none ↔ mark ∉ cs := cut?_eq_none_iff
      simp [cut?, h, ih, Ne.symm h]

theorem eq_append_of_cut? {mark : Char} :
    ∀ {cs before after : List Char}, cut? mark cs = some (before, after) →
      mark ∉ before ∧ cs = before ++ mark :: after
  | [], _, _, h => by simp [cut?] at h
  | c :: cs, before, after, h => by
    by_cases hc : c = mark
    · simp only [cut?, hc, if_true, Option.some.injEq, Prod.mk.injEq] at h
      simp [← h.1, ← h.2, hc]
    · simp only [cut?, hc, if_false, Option.map_eq_some_iff, Prod.mk.injEq] at h
      obtain ⟨⟨left, right⟩, hcut, rfl, rfl⟩ := h
      obtain ⟨hleft, hcs⟩ := eq_append_of_cut? hcut
      simp [hcs, hleft, Ne.symm hc]

/-- A mark that follows a text without it is where the text is cut. -/
theorem cut?_append_cons {mark : Char} (after : List Char) :
    ∀ {before : List Char}, mark ∉ before →
      cut? mark (before ++ mark :: after) = some (before, after)
  | [], _ => by simp [cut?]
  | c :: before, h => by
    have hc : c ≠ mark := fun e => h (by simp [e])
    have hrest : mark ∉ before := fun e => h (by simp [e])
    simp [cut?, hc, cut?_append_cons after hrest]

/-! ## Lines -/

/-- The first line of a text, with its newline if it has one, and what follows. -/
def takeLine : List Char → List Char × List Char
  | [] => ([], [])
  | c :: cs =>
    if c = '\n' then ([c], cs)
    else
      let (line, rest) := takeLine cs
      (c :: line, rest)

theorem takeLine_append_cons (rest : List Char) :
    ∀ {line : List Char}, '\n' ∉ line →
      takeLine (line ++ '\n' :: rest) = (line ++ ['\n'], rest)
  | [], _ => by simp [takeLine]
  | c :: line, h => by
    have hc : c ≠ '\n' := fun e => h (by simp [e])
    have hline : '\n' ∉ line := fun e => h (by simp [e])
    simp [takeLine, hc, takeLine_append_cons rest hline]

theorem takeLine_of_notMem : ∀ {line : List Char}, '\n' ∉ line → takeLine line = (line, [])
  | [], _ => rfl
  | c :: line, h => by
    have hc : c ≠ '\n' := fun e => h (by simp [e])
    have hline : '\n' ∉ line := fun e => h (by simp [e])
    simp [takeLine, hc, takeLine_of_notMem hline]

/-- The text is the first line and what follows it. -/
theorem takeLine_append : ∀ cs : List Char, (takeLine cs).1 ++ (takeLine cs).2 = cs
  | [] => rfl
  | c :: cs => by
    rw [takeLine]
    split
    · rfl
    · simp [takeLine_append cs]

end Surds.Text
