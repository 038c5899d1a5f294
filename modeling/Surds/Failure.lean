/-!
# Failures

Exact arithmetic is refused for six causes, and `Failure` names them. That a value has no exact
root, or is no perfect power, is an ordinary answer and never a failure.

Whole exponents and root degrees are computed up to `exponentLimit`; `withinLimit` is the one
place where a larger one is refused (`withinLimit_eq`).

`bind_eq_ok_iff` takes a successful computation apart, step by step, and `bind_eq_error_iff` a
failed one.
-/

namespace Surds

/-- The causes for which a value cannot be read, computed or ordered. -/
inductive Failure
  | divisionByZero
  | zerothRoot
  | exponentTooLarge
  | unorderedValue
  | badInteger
  | badFraction
  deriving DecidableEq

/-- The word by which a failure is reported. -/
def Failure.word : Failure → String
  | .divisionByZero => "DivisionByZero"
  | .zerothRoot => "ZeroRoot"
  | .exponentTooLarge => "ExponentTooLarge"
  | .unorderedValue => "UnsupportedComparison"
  | .badInteger => "BadInteger"
  | .badFraction => "BadFraction"

/-! ## Computations that may fail -/

/-- A computation in two steps succeeds when both steps do. -/
theorem bind_eq_ok_iff {α β : Type} {x : Except Failure α} {f : α → Except Failure β} {v : β} :
    x >>= f = .ok v ↔ ∃ a, x = .ok a ∧ f a = .ok v := by
  constructor
  · intro h
    cases x with
    | error e => cases h
    | ok a => exact ⟨a, rfl, h⟩
  · rintro ⟨a, rfl, h⟩
    exact h

/-- A computation in two steps fails when the first step does, or else the second. -/
theorem bind_eq_error_iff {α β : Type} {x : Except Failure α} {f : α → Except Failure β}
    {w : Failure} : x >>= f = .error w ↔ x = .error w ∨ ∃ a, x = .ok a ∧ f a = .error w := by
  constructor
  · intro h
    cases x with
    | error e =>
      cases h
      exact .inl rfl
    | ok a => exact .inr ⟨a, rfl, h⟩
  · rintro (rfl | ⟨a, rfl, h⟩)
    · rfl
    · exact h

/-- What a search finds, if it succeeds and finds anything, is mapped. -/
theorem map_eq_ok_some_iff {α β : Type} {x : Except Failure (Option α)} {f : α → β} {b : β} :
    (do return (← x).map f) = Except.ok (some b) ↔ ∃ a, x = .ok (some a) ∧ f a = b := by
  rw [bind_eq_ok_iff]
  constructor
  · rintro ⟨o, hx, h⟩
    obtain ⟨a, rfl, hb⟩ := Option.map_eq_some_iff.1 (Except.ok.inj h)
    exact ⟨a, hx, hb⟩
  · rintro ⟨a, hx, rfl⟩
    exact ⟨some a, hx, rfl⟩

/-- A computation that does not fail succeeds. -/
theorem exists_eq_ok_iff {α : Type} {x : Except Failure α} :
    (∃ a, x = .ok a) ↔ ∀ w, x ≠ .error w := by
  cases x with
  | error e => exact iff_of_false nofun fun h => h e rfl
  | ok a => exact iff_of_true ⟨a, rfl⟩ nofun

/-- Computations that fail alike and cannot succeed with different results are the same. -/
theorem eq_of_error_iff {α : Type} {x y : Except Failure α}
    (herror : ∀ w, x = .error w ↔ y = .error w) (hok : ∀ a b, x = .ok a → y = .ok b → a = b) :
    x = y := by
  cases x with
  | error w => exact ((herror w).1 rfl).symm
  | ok a =>
    cases y with
    | error w => exact (herror w).2 rfl
    | ok b => rw [hok a b rfl rfl]

theorem toOption_eq_some_iff {α : Type} {a : α} :
    ∀ {y : Except Failure α}, y.toOption = some a ↔ y = .ok a
  | .error _ => by simp [Except.toOption]
  | .ok _ => by simp [Except.toOption]

/-! ## The limit of exponents -/

/-- The largest whole exponent, and the largest root degree, that is computed: `2 ^ 32 - 1`. -/
def exponentLimit : Nat := 0xFFFFFFFF

/-- An exponent or degree is passed on when it does not exceed `exponentLimit`. -/
def withinLimit (n : Nat) : Except Failure Nat :=
  if n ≤ exponentLimit then .ok n else .error .exponentTooLarge

theorem withinLimit_eq (n : Nat) : withinLimit n =
    if exponentLimit < n then .error .exponentTooLarge else .ok n := by
  unfold withinLimit
  split <;> split
  · omega
  · rfl
  · rfl
  · omega

theorem withinLimit_eq_error_iff {n : Nat} {w : Failure} :
    withinLimit n = .error w ↔ w = .exponentTooLarge ∧ exponentLimit < n := by
  rw [withinLimit_eq]
  split
  · rename_i h
    simp [h, eq_comm]
  · rename_i h
    simp [h]

theorem withinLimit_eq_ok_iff {n m : Nat} : withinLimit n = .ok m ↔ n ≤ exponentLimit ∧ m = n := by
  rw [withinLimit_eq]
  split
  · rename_i h
    simp [Nat.not_le.2 h]
  · rename_i h
    simp [Nat.not_lt.1 h, eq_comm]

end Surds
