import TraceCalculus.Session.Basic

/-! # Scripts

A script is a text with a line for each command. Blank lines and lines that start with a number
sign are passed over. The answers that have a text are printed, a line break after each.
-/

set_option autoImplicit false

namespace TraceCalculus.Script

/-- The lines of a script that are to be answered. -/
def lines (source : String) : List String :=
  ((Text.lines source.toList).map Text.trim).filterMap fun cs =>
    match cs with
    | [] => none
    | '#' :: _ => none
    | cs => some (String.ofList cs)

/-- The answers to a script in a new session. -/
def replies {S : Type} [Scalar S] (fuel : Nat) (source : String) : List (Reply S) :=
  ({} : Session).runAll fuel (lines source)

/-- What is printed for an answer. -/
def printed {S : Type} : Reply S → String
  | .answer output => if output.text = "" then "" else output.text ++ "\n"
  | _ => ""

/-- What a script prints. -/
def output {S : Type} (replies : List (Reply S)) : String := String.join (replies.map printed)

/-- What there is to say beside the answers. -/
def notices {S : Type} [Scalar S] : Reply S → List Notice
  | .answer output => output.warnings.map (·.cause.notice)
  | .refusal e => [e.cause.notice]
  | .outOfFuel => []

end TraceCalculus.Script
