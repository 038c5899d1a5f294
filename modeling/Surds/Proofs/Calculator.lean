import Surds.Calculator
import Surds.Proofs.Power.Refusal
import Surds.Proofs.Scalar.Reading
import Surds.Proofs.Surd.Decoding

/-!
# Sessions with the calculator

An input is answered line by line. `Lines s lines` says that the text `s` consists of `lines`, each
ended by a newline. A turn at a line that is not blank shows the reply to it and goes on behind it
(`Session.turn_of_ne_nil`), and a turn at a blank line is the last (`Session.turn_of_eq_nil`). By
induction on the lines the session gets through all that are not blank (`Session.run_lines`), and
what was shown before does not change what is shown after (`Session.shown_run`). So an input without
blank lines is answered as if nothing followed it, and what follows as if nothing had been before
(`transcript_append`).

Each answer is a single line, because what is written for a surd has the characters of numerals and
powers only (`Surd.Canonical.write_subset`). A line is refused for what it writes, for a division by
zero or for a large exponent, and for nothing else (`evaluate_eq_error`) : the sentence that names
another failure is never shown.
-/

namespace Surds

/-! ## Lines -/

namespace Text

variable {s l : List Char} {lines : List (List Char)}

/-- A text consists of lines, each ended by a newline. -/
inductive Lines : List Char → List (List Char) → Prop
  | nil : Lines [] []
  | cons {l s : List Char} {lines : List (List Char)} (hl : '\n' ∉ l) (hs : Lines s lines) :
      Lines (l ++ '\n' :: s) (l :: lines)

/-- Every text consists of lines and a rest that is not ended. -/
theorem exists_lines_append :
    ∀ s : List Char, ∃ u lines rest, s = u ++ rest ∧ Lines u lines ∧ '\n' ∉ rest
  | [] => ⟨[], [], [], rfl, .nil, List.not_mem_nil⟩
  | c :: s => by
    obtain ⟨u, lines, rest, rfl, hu, hrest⟩ := exists_lines_append s
    by_cases hc : c = '\n'
    · subst hc
      exact ⟨'\n' :: u, [] :: lines, rest, rfl, .cons List.not_mem_nil hu, hrest⟩
    · cases hu with
      | nil => exact ⟨[], [], c :: rest, rfl, .nil, by simp [hrest, Ne.symm hc]⟩
      | @cons l u lines hl hu =>
        exact ⟨c :: l ++ '\n' :: u, (c :: l) :: lines, rest, rfl,
          .cons (by simp [hl, Ne.symm hc]) hu, hrest⟩

/-- The texts that consist of lines are the empty one and those that end with a newline. -/
theorem exists_lines_iff : (∃ lines, Lines s lines) ↔ ∀ c ∈ s.getLast?, c = '\n' := by
  constructor
  · rintro ⟨lines, h⟩
    induction h with
    | nil => exact nofun
    | @cons l s lines _ _ ih =>
      cases s with
      | nil => simp
      | cons d s => rwa [List.getLast?_append_cons, List.getLast?_cons_cons]
  · intro h
    obtain ⟨u, lines, rest, rfl, hu, hrest⟩ := exists_lines_append s
    rcases List.eq_nil_or_concat rest with rfl | ⟨rest, c, rfl⟩
    · exact ⟨lines, (List.append_nil u).symm ▸ hu⟩
    · have hc : c = '\n' := h c (by simp)
      simp [hc] at hrest

/-- The newline at the end of the first line is a blank, so trimming does not see it. -/
theorem trim_takeLine (s : List Char) :
    trim (takeLine s).1 = trim (s.takeWhile (· ≠ '\n')) := by
  have hpos : ∀ {l : List Char}, '\n' ∉ l → ∀ c ∈ l, decide (c ≠ '\n') = true := fun hl c hc =>
    decide_eq_true fun h => hl (h ▸ hc)
  by_cases hmem : '\n' ∈ s
  · obtain ⟨l, rest, rfl, hl⟩ := List.eq_append_cons_of_mem hmem
    rw [takeLine_append_cons rest hl, List.takeWhile_append_of_pos (hpos hl),
      List.takeWhile_cons_of_neg (by decide), List.append_nil]
    exact trim_append (u := []) (by decide) (by decide)
  · rw [takeLine_of_notMem hmem, List.takeWhile_eq_self_iff.2 (hpos hmem)]

end Text

open Text

/-! ## What is written -/

/-- The characters of a written surd. -/
def writtenCharacters : List Char :=
  '*' :: '^' :: 'I' :: '(' :: ')' :: '/' :: '-' :: Numeral.digits

theorem intercalate_subset {sep m : List Char} (hsep : sep ⊆ m) :
    ∀ {parts : List (List Char)}, (∀ part ∈ parts, part ⊆ m) → sep.intercalate parts ⊆ m
  | [], _ => by
    rw [List.intercalate_nil]
    exact List.nil_subset m
  | [part], h => by
    rw [List.intercalate_singleton]
    exact h part (List.mem_singleton_self part)
  | part :: next :: rest, h => by
    obtain ⟨hpart, hrest⟩ := List.forall_mem_cons.1 h
    rw [List.intercalate_cons_cons]
    exact List.append_subset.2 ⟨List.append_subset.2 ⟨hpart, hsep⟩, intercalate_subset hsep hrest⟩

theorem Scalar.write_subset (a : Scalar) : a.write ⊆ writtenCharacters :=
  fun _ h => List.mem_append_right ['*', '^', 'I', '(', ')'] (mem_of_mem_write h)

theorem Base.writePower_subset (b : Base) (e : Scalar) : b.writePower e ⊆ writtenCharacters := by
  have hbase : b.write ⊆ writtenCharacters := fun _ h =>
    (by decide : 'I' :: '(' :: ')' :: '-' :: Numeral.digits ⊆ writtenCharacters)
      (mem_of_mem_write h)
  have hexponent : e.writeExponent ⊆ writtenCharacters := fun _ h =>
    (by decide : '(' :: ')' :: '/' :: '-' :: Numeral.digits ⊆ writtenCharacters)
      (Scalar.mem_of_mem_writeExponent h)
  rw [writePower]
  split_ifs
  · exact hbase
  · exact List.append_subset.2 ⟨hbase, List.cons_subset.2 ⟨by decide, hexponent⟩⟩

theorem factors_subset {a : Scalar} {powers : List (List Char)}
    (h : ∀ power ∈ powers, power ⊆ writtenCharacters) :
    ∀ factor ∈ factors a powers, factor ⊆ writtenCharacters := by
  cases powers with
  | nil =>
    rw [factors, List.forall_mem_singleton]
    exact a.write_subset
  | cons power rest =>
    obtain ⟨hpower, hrest⟩ := List.forall_mem_cons.1 h
    rw [factors]
    split_ifs
    · exact List.forall_mem_cons.2 ⟨List.cons_subset.2 ⟨by decide, hpower⟩, hrest⟩
    · exact h
    · exact List.forall_mem_cons.2 ⟨a.write_subset, h⟩

theorem Surd.Canonical.write_subset {x : Surd} (hx : x.Canonical) :
    x.write ⊆ writtenCharacters := by
  rw [hx.write_eq]
  refine intercalate_subset (by decide) (factors_subset fun power hpower => ?_)
  obtain ⟨r, -, rfl⟩ := List.mem_map.1 hpower
  exact Base.writePower_subset r.1 r.2

/-! ## Refused lines -/

/-- A power of canonical scalars is refused for a division by zero or a large exponent only. -/
theorem power_eq_error {b e : Scalar} {w : Failure} (hb : b.Canonical) (he : e.Canonical)
    (h : power b e = .error w) : w = .divisionByZero ∨ w = .exponentTooLarge := by
  cases e with
  | whole k => exact ((power_whole_eq_error_iff hb).1 h).imp And.left And.left
  | frac g => exact ((power_frac_eq_error_iff he hb).1 h).imp And.left And.left

theorem Scalar.read_eq_error {s : List Char} {w : Failure} (h : read s = .error w) :
    w = .badInteger ∨ w = .badFraction ∨ w = .divisionByZero := by
  rw [read_eq_iff] at h
  generalize trim s = t at h
  cases h with
  | badInteger => exact .inl rfl
  | badFraction => exact .inr (.inl rfl)
  | divisionByZero => exact .inr (.inr rfl)

namespace Calculator

variable {line s l text : List Char} {lines : List (List Char)} {w : Failure}

/-- A line asks for no root and for no order. -/
theorem evaluate_eq_error (h : evaluate line = .error w) :
    w ≠ .zerothRoot ∧ w ≠ .unorderedValue := by
  have hread : ∀ {s}, Scalar.read s = .error w → w ≠ .zerothRoot ∧ w ≠ .unorderedValue :=
    fun h => by rcases Scalar.read_eq_error h with rfl | rfl | rfl <;> decide
  unfold evaluate at h
  split at h
  · obtain h | ⟨b, hb, h⟩ := bind_eq_error_iff.1 h
    · exact hread h
    obtain h | ⟨e, he, h⟩ := bind_eq_error_iff.1 h
    · exact hread h
    obtain h | ⟨x, -, h⟩ := bind_eq_error_iff.1 h
    · rcases power_eq_error (Scalar.canonical_of_read hb) (Scalar.canonical_of_read he) h
        with rfl | rfl <;> decide
    · cases h
  · obtain h | ⟨a, -, h⟩ := bind_eq_error_iff.1 h
    · exact hread h
    · cases h

theorem evaluate_subset (h : evaluate line = .ok text) : text ⊆ writtenCharacters := by
  unfold evaluate at h
  split at h
  · obtain ⟨b, hb, h⟩ := bind_eq_ok_iff.1 h
    obtain ⟨e, he, h⟩ := bind_eq_ok_iff.1 h
    obtain ⟨x, hx, h⟩ := bind_eq_ok_iff.1 h
    rw [← Except.ok.inj h]
    exact (canonical_power (Scalar.canonical_of_read hb) (Scalar.canonical_of_read he)
      hx).write_subset
  · obtain ⟨a, -, h⟩ := bind_eq_ok_iff.1 h
    rw [← Except.ok.inj h]
    exact a.write_subset

/-! ## Answers -/

theorem notMem_complaint {c : Char} (hc : c = '\n' ∨ c = 'C') :
    ∀ {w : Failure}, w ≠ .zerothRoot → w ≠ .unorderedValue → c ∉ (complaint w).toList
  | .divisionByZero, _, _ | .exponentTooLarge, _, _ | .badInteger, _, _ | .badFraction, _, _ => by
    rcases hc with rfl | rfl <;> decide
  | .zerothRoot, h, _ => absurd rfl h
  | .unorderedValue, _, h => absurd rfl h

/-- No answer has a newline in it, nor the capital that a sentence with the name of a failure
starts with. -/
theorem notMem_reply {c : Char} (hc : c = '\n' ∨ c = 'C') (line : List Char) : c ∉ reply line := by
  unfold reply
  cases h : evaluate line with
  | ok text =>
    refine fun hmem => absurd (evaluate_subset h hmem) ?_
    rcases hc with rfl | rfl <;> decide
  | error w =>
    obtain ⟨hroot, horder⟩ := evaluate_eq_error h
    exact notMem_complaint hc hroot horder

/-! ## Turns -/

namespace Session

/-- A turn at a line that is not blank shows the reply and leaves the rest for the next turn. -/
theorem turn_of_ne_nil (h : trim (takeLine s).1 ≠ []) (shown : List Char) : turn ⟨s, shown⟩ =
    (true, ⟨(takeLine s).2, shown ++ (reply (trim (takeLine s).1) ++ ['\n'])⟩) := by
  rw [turn_eq_ite, if_neg (mt List.isEmpty_iff.1 h), List.append_assoc]

/-- A turn at a blank line shows nothing and is the last. -/
theorem turn_of_eq_nil (h : trim (takeLine s).1 = []) (shown : List Char) :
    turn ⟨s, shown⟩ = (false, ⟨(takeLine s).2, shown⟩) := by
  rw [turn_eq_ite, if_pos (List.isEmpty_iff.2 h)]

theorem run_of_ne_nil (h : trim (takeLine s).1 ≠ []) (shown : List Char) : run ⟨s, shown⟩ =
    run ⟨(takeLine s).2, shown ++ (reply (trim (takeLine s).1) ++ ['\n'])⟩ := by
  rw [run_eq_ite, turn_of_ne_nil h, if_pos rfl]

theorem run_of_eq_nil (h : trim (takeLine s).1 = []) (shown : List Char) :
    run ⟨s, shown⟩ = ⟨(takeLine s).2, shown⟩ := by
  rw [run_eq_ite, turn_of_eq_nil h, if_neg Bool.false_ne_true]

/-- What holds at the start and is kept by each turn holds at the end. -/
theorem run_induction {P : Session → Prop} (hturn : ∀ session, P session → P session.turn.2)
    (session : Session) (h : P session) : P session.run := by
  have hkeep := hturn session h
  rw [run_eq_ite]
  split_ifs with hgo
  · have hlt := length_unread_lt hgo
    exact run_induction hturn session.turn.2 hkeep
  · exact hkeep
termination_by session.unread.length

/-- What was shown stays, and does not change what is shown after it. -/
theorem shown_run (s shown : List Char) : (run ⟨s, shown⟩).shown = shown ++ transcript s := by
  by_cases h : trim (takeLine s).1 = []
  · rw [transcript, run_of_eq_nil h, run_of_eq_nil h, List.append_nil]
  · have hlt : (takeLine s).2.length < s.length := by
      have hunread := length_unread_lt (s := ⟨s, shown⟩) (by rw [turn_of_ne_nil h])
      rwa [turn_of_ne_nil h] at hunread
    rw [transcript, run_of_ne_nil h, run_of_ne_nil h, shown_run, shown_run, List.nil_append,
      List.append_assoc]
termination_by s.length

/-- The turns at the lines of a text that are not blank, one after the other. -/
theorem run_lines (hs : Lines s lines) (hlines : ∀ l ∈ lines, trim l ≠ []) (t shown : List Char) :
    run ⟨s ++ t, shown⟩ = run ⟨t, shown ++ lines.flatMap fun l => reply (trim l) ++ ['\n']⟩ := by
  induction hs generalizing shown with
  | nil => rw [List.nil_append, List.flatMap_nil, List.append_nil]
  | @cons l s lines hl _ ih =>
    obtain ⟨hblank, hrest⟩ := List.forall_mem_cons.1 hlines
    have htake : takeLine ((l ++ '\n' :: s) ++ t) = (l ++ ['\n'], s ++ t) := by
      rw [List.append_assoc, List.cons_append, takeLine_append_cons _ hl]
    have htrim : trim (l ++ ['\n']) = trim l := trim_append (u := []) (by decide) (by decide)
    rw [run_of_ne_nil (by rwa [htake, htrim]), htake, htrim, ih hrest, List.flatMap_cons,
      List.append_assoc]

end Session

/-! ## Transcripts -/

/-- The lines that are not blank are answered, and what follows them like an input of its own. -/
theorem transcript_append (hs : Lines s lines) (hlines : ∀ l ∈ lines, trim l ≠ []) (t : List Char) :
    transcript (s ++ t) = (lines.flatMap fun l => reply (trim l) ++ ['\n']) ++ transcript t := by
  rw [transcript, Session.run_lines hs hlines, List.nil_append, Session.shown_run]

/-- Nothing is answered at a blank line or after it. -/
theorem transcript_blank (h : trim (s.takeWhile (· ≠ '\n')) = []) : transcript s = [] := by
  rw [transcript, Session.run_of_eq_nil ((trim_takeLine s).trans h)]

/-- At the end of the input nothing more is answered. -/
theorem transcript_lines (hs : Lines s lines) (hlines : ∀ l ∈ lines, trim l ≠ []) :
    transcript s = lines.flatMap fun l => reply (trim l) ++ ['\n'] := by
  rw [← List.append_nil s, transcript_append hs hlines, transcript_blank rfl, List.append_nil]

theorem lines_flatMap_reply : ∀ lines : List (List Char),
    Lines (lines.flatMap fun l => reply (trim l) ++ ['\n']) (lines.map fun l => reply (trim l))
  | [] => .nil
  | l :: lines => by
    rw [List.flatMap_cons, List.append_assoc]
    exact .cons (notMem_reply (.inl rfl) _) (lines_flatMap_reply lines)

theorem notMem_transcript (s : List Char) : 'C' ∉ transcript s := by
  refine Session.run_induction (P := fun session => 'C' ∉ session.shown) ?_ ⟨s, []⟩
    List.not_mem_nil
  rintro ⟨unread, shown⟩ h
  by_cases hline : trim (takeLine unread).1 = []
  · rwa [Session.turn_of_eq_nil hline]
  · rw [Session.turn_of_ne_nil hline]
    simp only [List.mem_append, List.mem_singleton, not_or]
    exact ⟨h, notMem_reply (.inr rfl) _, by decide⟩

/-- The calculator answers line by line. A text that is empty or ends with a newline consists of
lines. If none of them is blank, it has the same answers whatever follows it, and those to what
follows come after them, or none if that starts with a blank line. It has one answer for each line,
and each is one line. Whatever the input is, no answer names a failure that has no sentence of its
own, since no line has such a failure. -/
theorem transcript_line_by_line :
    (∀ s : List Char, (∃ lines, Lines s lines) ↔ ∀ c ∈ s.getLast?, c = '\n') ∧
    (∀ (s : List Char) (lines : List (List Char)), Lines s lines → (∀ l ∈ lines, trim l ≠ []) →
      (∀ t, transcript (s ++ t) = transcript s ++ transcript t) ∧
      (∀ t, trim (t.takeWhile (· ≠ '\n')) = [] → transcript (s ++ t) = transcript s) ∧
      Lines (transcript s) (lines.map fun l => reply (trim l))) ∧
    (∀ input, ¬ "Calculation failed".toList <:+: transcript input) ∧
    ∀ line w, evaluate line = .error w → w ≠ .zerothRoot ∧ w ≠ .unorderedValue := by
  refine ⟨fun s => exists_lines_iff, fun s lines hs hlines => ?_, fun input h => ?_,
    fun line w => evaluate_eq_error⟩
  · have happend := transcript_append hs hlines
    have hself := transcript_lines hs hlines
    refine ⟨fun t => by rw [happend, hself], fun t ht => ?_, hself ▸ lines_flatMap_reply lines⟩
    rw [happend, hself, transcript_blank ht, List.append_nil]
  · exact notMem_transcript input (h.subset (by decide))

/-- Two lines with blanks at their ends, and a blank line with another one after it. -/
theorem transcript_line_by_line_of_blanks :
    let s := "8/27 ^ 2/3\u3000".toList ++ '\n' :: ("\u00a0x".toList ++ '\n' :: [])
    transcript (s ++ " \t\n1\n".toList) = transcript s ∧
      Lines (transcript s)
        ["4/9".toList, "Parsing your input failed, try e.g. -4 ^ 3/2".toList] := by
  intro s
  have hs : Lines s ["8/27 ^ 2/3\u3000".toList, "\u00a0x".toList] :=
    .cons (by decide) (.cons (by decide) .nil)
  obtain ⟨-, hsession, -⟩ := transcript_line_by_line
  obtain ⟨-, hblank, hlines⟩ := hsession s _ hs (by decide)
  exact ⟨hblank _ (by decide), hlines⟩

end Calculator

end Surds
