import Mathlib.Data.List.DropRight
import Surds.Text

/-!
# Trimming

`Trims s t` says that `t` is what is left of the text `s` when blanks are taken off both ends and
none is left at either end. For every text there is one such `t`, and it is `trim s` (`trims_iff`).
In particular blanks around a text do not change what it is trimmed to (`trim_append`).
-/

namespace Surds.Text

/-- All characters of the text are blank. -/
def AllBlank (s : List Char) : Prop :=
  ∀ c ∈ s, isBlank c

instance (s : List Char) : Decidable (AllBlank s) :=
  decidable_of_iff (s.all isBlank = true) List.all_eq_true

/-- The text `t` is `s` without the blanks at its ends. -/
structure Trims (s t : List Char) : Prop where
  eq_append : ∃ u v, AllBlank u ∧ AllBlank v ∧ s = u ++ t ++ v
  head : ∀ c ∈ t.head?, ¬ isBlank c
  last : ∀ c ∈ t.getLast?, ¬ isBlank c

variable {s t u v : List Char}

theorem trimRight_eq_rdropWhile (s : List Char) : trimRight s = s.rdropWhile isBlank :=
  rfl

theorem AllBlank.reverse (h : AllBlank s) : AllBlank s.reverse :=
  fun c hc => h c (List.mem_reverse.1 hc)

theorem trimLeft_append (hu : AllBlank u) : trimLeft (u ++ s) = trimLeft s :=
  List.dropWhile_append_of_pos hu

theorem trimRight_append (hv : AllBlank v) : trimRight (s ++ v) = trimRight s := by
  rw [trimRight, List.reverse_append, trimLeft_append hv.reverse, trimRight]

/-- Blanks on the right are kept when blanks on the left are taken off, unless nothing is left. -/
theorem trimLeft_append_of_ne_nil (h : trimLeft s ≠ []) : trimLeft (s ++ v) = trimLeft s ++ v := by
  rw [trimLeft, List.dropWhile_append, if_neg (by simpa [trimLeft] using h), trimLeft]

theorem trimLeft_eq_nil_iff : trimLeft s = [] ↔ AllBlank s :=
  List.dropWhile_eq_nil_iff

/-- Blanks around a text do not matter. -/
theorem trim_append (hu : AllBlank u) (hv : AllBlank v) : trim (u ++ s ++ v) = trim s := by
  rw [List.append_assoc, trim, trimLeft_append hu, trim]
  by_cases h : trimLeft s = []
  · rw [trimLeft_append (trimLeft_eq_nil_iff.1 h), h, trimLeft_eq_nil_iff.2 hv]
  · rw [trimLeft_append_of_ne_nil h, trimRight_append hv]

theorem trim_eq_self (hhead : ∀ c ∈ s.head?, ¬ isBlank c) (hlast : ∀ c ∈ s.getLast?, ¬ isBlank c) :
    trim s = s := by
  have hleft : trimLeft s = s := by
    cases s with
    | nil => rfl
    | cons c cs => exact List.dropWhile_cons_of_neg (hhead c rfl)
  rw [trim, hleft, trimRight_eq_rdropWhile, List.rdropWhile_eq_self_iff]
  exact fun hne => hlast _ (List.getLast?_eq_some_getLast hne)

theorem trim_eq_self_of_no_blank (h : ∀ c ∈ s, ¬ isBlank c) : trim s = s :=
  trim_eq_self (fun c hc => h c (List.mem_of_mem_head? hc))
    fun c hc => h c (List.mem_of_getLast? hc)

theorem Trims.trim_eq (h : Trims s t) : trim s = t := by
  obtain ⟨u, v, hu, hv, rfl⟩ := h.eq_append
  rw [trim_append hu hv, trim_eq_self h.head h.last]

theorem trims_trim (s : List Char) : Trims s (trim s) := by
  obtain ⟨w, hw⟩ : trim s <+: trimLeft s := List.rdropWhile_prefix _ _
  refine ⟨⟨s.takeWhile isBlank, (trimLeft s).rtakeWhile isBlank, ?_, ?_, ?_⟩, ?_, ?_⟩
  · exact fun c hc => List.mem_takeWhile_imp hc
  · exact fun c hc => List.mem_rtakeWhile_imp hc
  · rw [trim, trimRight_eq_rdropWhile, List.append_assoc, List.rdropWhile_append_rtakeWhile]
    exact List.takeWhile_append_dropWhile.symm
  · intro c hc
    have hleft : (s.dropWhile isBlank).head? = some c := by
      rw [← trimLeft, ← hw, List.head?_append, Option.mem_def.1 hc, Option.some_or]
    have hnot := List.head?_dropWhile_not isBlank s
    rw [hleft] at hnot
    exact Bool.eq_false_iff.1 hnot
  · intro c hc
    obtain ⟨hne, rfl⟩ := List.mem_getLast?_eq_getLast hc
    exact List.rdropWhile_last_not _ _ hne

/-- A text is trimmed to exactly one text. -/
theorem trims_iff : Trims s t ↔ trim s = t :=
  ⟨Trims.trim_eq, fun h => h ▸ trims_trim s⟩

end Surds.Text
