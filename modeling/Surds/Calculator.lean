import Surds.Power
import Surds.Surd.Text

/-!
# The line calculator

A line holds a number, or a base and an exponent with `^` between them. `evaluate` writes the
value of a line, and `reply` puts a sentence in its place where there is none.

The calculator takes turns: it gets a line, and shows the reply to it, or stops if the line is blank
(`turn`, `converse`). How a line is got and a reply shown is left to the monad. On the command line
it is input and output. In a `Session` the input is a text and what is shown is another; `transcript`
is all that is shown for an input until the calculator stops, which it does (`Session.run_eq_ite`,
`Session.length_unread_lt`).
-/

namespace Surds.Calculator

open Text

/-- The value of a line as text. The base is read before the exponent. -/
def evaluate (line : List Char) : Except Failure (List Char) :=
  match cut? '^' line with
  | some (base, exponent) => do
    let b ← Scalar.read base
    let e ← Scalar.read exponent
    return (← power b e).write
  | none => do return (← Scalar.read line).write

/-- What is shown for a line without a value. -/
def complaint : Failure → String
  | .divisionByZero => "Attempted division by zero"
  | .exponentTooLarge => "The exponent is too large"
  | .badInteger | .badFraction => "Parsing your input failed, try e.g. -4 ^ 3/2"
  | failure => "Calculation failed: " ++ failure.word

/-- What is shown for a line. -/
def reply (line : List Char) : List Char :=
  match evaluate line with
  | .ok text => text
  | .error failure => (complaint failure).toList

/-- Answer one line, without the blanks at its ends. The result says whether to go on: a blank line,
which is also what there is at the end of the input, is the last. -/
def turn {m : Type → Type} [Monad m] (getLine : m (List Char)) (putLine : List Char → m Unit) :
    m Bool := do
  let line := trim (← getLine)
  if line.isEmpty then
    return false
  else
    putLine (reply line)
    return true

/-- Answer line after line, until one is the last. -/
def converse {m : Type → Type} [Monad m] (getLine : m (List Char)) (putLine : List Char → m Unit) :
    m Unit := do
  repeat
    unless ← turn getLine putLine do
      break

/-! ## Sessions -/

/-- What is left of an input, and what was shown so far. -/
structure Session where
  unread : List Char
  shown : List Char
  deriving DecidableEq, Inhabited

namespace Session

/-- Take a line off the input. At the end of the input it is empty. -/
def getLine : StateM Session (List Char) := do
  let s ← get
  let (line, rest) := takeLine s.unread
  set { s with unread := rest }
  return line

/-- Show a line. -/
def putLine (line : List Char) : StateM Session Unit :=
  modify fun s => { s with shown := s.shown ++ line ++ ['\n'] }

/-- Answer one line of the input. -/
def turn (s : Session) : Bool × Session :=
  (Calculator.turn getLine putLine).run s

theorem turn_eq_ite (s : Session) : s.turn =
    if (trim (takeLine s.unread).1).isEmpty then
      (false, { s with unread := (takeLine s.unread).2 })
    else
      (true, ⟨(takeLine s.unread).2, s.shown ++ reply (trim (takeLine s.unread).1) ++ ['\n']⟩) := by
  have hturn : s.turn = (do
      if (trim (takeLine s.unread).1).isEmpty then
        return false
      else
        putLine (reply (trim (takeLine s.unread).1))
        return true : StateM Session Bool).run { s with unread := (takeLine s.unread).2 } :=
    rfl
  rw [hturn]
  split <;> rfl

/-- A turn after which the session goes on has read something. -/
theorem length_unread_lt {s : Session} (h : s.turn.1 = true) :
    s.turn.2.unread.length < s.unread.length := by
  rw [turn_eq_ite] at h ⊢
  split at h
  · exact absurd h Bool.false_ne_true
  · rename_i hline
    have hlength := congrArg List.length (takeLine_append s.unread)
    have hpos : 0 < (takeLine s.unread).1.length :=
      List.length_pos_iff.2 fun hnil => hline (by rw [hnil]; rfl)
    rw [List.length_append] at hlength
    rw [if_neg hline]
    show (takeLine s.unread).2.length < s.unread.length
    omega

/-- Answer the lines of the input, until one is the last. -/
def run (s : Session) : Session :=
  ((converse getLine putLine).run s).2

/-- A session goes on after a turn just when the turn says so. -/
theorem run_eq_ite (s : Session) : s.run = if s.turn.1 then s.turn.2.run else s.turn.2 := by
  have hturn : (Calculator.turn getLine putLine).run s = s.turn := rfl
  conv => lhs; rw [run, converse]
  change (StateT.run (repeatM (m := StateM Session) _ PUnit.unit >>= _) s).2 = _
  -- The loop is its body followed by the loop.
  rw [repeatM_eq_of_monadTail]
  simp only [repeatM.body, StateT.run_bind, hturn]
  cases s.turn with
  | mk goOn next =>
    cases goOn with
    | true => rfl
    | false => rfl

end Session

/-- Everything that is shown for an input. -/
def transcript (input : List Char) : List Char :=
  (Session.run ⟨input, []⟩).shown

end Surds.Calculator
