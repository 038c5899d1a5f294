import Surds.Calculator

/-!
# Command line

Reads lines from standard input and answers each one, until a line is blank or the input ends.
-/

namespace Surds

/-- Answer each line of the input. -/
def converse (input output : IO.FS.Stream) : IO Unit :=
  Calculator.converse (return (← input.getLine).toList) fun line => do
    output.putStrLn (String.ofList line)
    output.flush

end Surds

def main : IO Unit := do
  Surds.converse (← IO.getStdin) (← IO.getStdout)
