import TraceCalculus.Session.Script

/-! # The command line

Reads a script from standard input and prints the answers. What is printed does not depend on the
fuel once it suffices, so it is chosen beyond the length of any run.
-/

namespace TraceCalculus

/-- More fuel than any run that ends in reasonable time uses. -/
def patience : Nat := Nat.pow 10 12

end TraceCalculus

def main : IO Unit := do
  let source ← (← IO.getStdin).readToEnd
  let replies : List (TraceCalculus.Reply Float) :=
    TraceCalculus.Script.replies TraceCalculus.patience source
  IO.print (TraceCalculus.Script.output replies)
  for notice in replies.flatMap TraceCalculus.Script.notices do
    IO.eprintln notice.message
