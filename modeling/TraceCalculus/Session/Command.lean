import TraceCalculus.Differential
import TraceCalculus.Formula.Meaning
import TraceCalculus.Text.Fragment

/-! # The commands of a session

A line is a command if it starts with a colon, and otherwise an expression to be shown. What a line
asks for does not depend on the session.
-/

set_option autoImplicit false

namespace TraceCalculus

open Text (Fragment)

/-- What a line asks for. Expressions are still text. -/
inductive Command where
  /-- Nothing: the line is blank. -/
  | idle
  /-- Show an expression as it is understood. -/
  | echo (source : Fragment)
  /-- Show a differential and its canonical form, or the equation for it in LaTeX. -/
  | differentiate (order : DiffOrder) (latex : Bool) (wrt : String) (source : Fragment)
  | canonicalize (source : Fragment)
  | tree (source : Fragment)
  | declare (names : List String)
  /-- Whether to show the steps of canonicalization from now on. -/
  | steps (shown : Bool)
  /-- How many steps to allow from now on. -/
  | budget (limit : Option Nat)
  | help
  deriving DecidableEq

/-- The causes for which a line is refused. -/
inductive Fault where
  | reading (e : ReadError)
  | unknownCommand (name : String) (suggestions : List String)
  | invalidArguments (usage : String)
  deriving DecidableEq

/-- The wording of each cause. -/
def Fault.notice : Fault → Notice
  | .reading e => e.notice
  | .unknownCommand name suggestions =>
    { message := "unknown command " ++ quoted (":" ++ name)
      label := "this command"
      help := some (match suggestions with
        | [] => "type :help for a list of commands"
        | first :: _ => "did you mean " ++ quoted (":" ++ first) ++ "?") }
  | .invalidArguments usage =>
    { message := "invalid arguments"
      label := "for this command"
      help := some ("usage: " ++ usage) }

namespace Command

/-- The names of the commands with a line on each. -/
def usages : List (String × String) :=
  [("d", ":d X <expr>          differentiate with respect to X and canonicalize"),
    ("h", ":h X <expr>          second differential with respect to X"),
    ("c", ":c <expr>            canonicalize"),
    ("tex", ":tex X <expr>        the derivative with respect to X as LaTeX"),
    ("tree", ":tree <expr>         the expression tree"),
    ("scalar", ":scalar a b ...      declare scalar variables"),
    ("steps", ":steps on|off        show the rewrites made by the canonicalizer"),
    ("budget", ":budget N|off        limit the number of rewrites"),
    ("help", ":help                this message")]

/-- The line on a command. -/
def usage (name : String) : String := (usages.lookup name).getD ""

/-- The lines on all commands. -/
def helpText : String := "\n".intercalate (usages.map (·.2))

/-- A number in digits, perhaps after a plus sign, that fits 64 bits. -/
def number? (cs : List Char) : Option Nat :=
  let digits := match cs with
    | '+' :: rest => rest
    | cs => cs
  if digits.isEmpty || !digits.all Char.isDigit then none
  else
    let n := Decimal.Numeral.digitsValue digits
    if n < Nat.pow 2 64 then some n else none

/-- The command of the given name with the given arguments, none if it cannot take them. -/
def withArguments? (name : String) (arguments : Fragment) : Option Command :=
  let argument := Text.trim arguments.chars
  match name with
  | "d" => differential? .first false
  | "h" => differential? .second false
  | "tex" => differential? .first true
  | "c" => some (.canonicalize arguments.trim)
  | "tree" => some (.tree arguments.trim)
  | "scalar" =>
    match Text.words arguments.chars with
    | [] => none
    | names => some (.declare (names.map String.ofList))
  | "steps" =>
    if argument = "on".toList then some (.steps true)
    else if argument = "off".toList then some (.steps false)
    else none
  | "budget" =>
    if argument = "off".toList then some (.budget none)
    else (number? argument).map fun n => .budget (some n)
  | "help" => some .help
  | _ => none
where
  /-- A variable, then an expression that is not blank. -/
  differential? (order : DiffOrder) (latex : Bool) : Option Command :=
    match arguments.splitWord? with
    | none => none
    | some (wrt, source) =>
      if source.isBlank then none else some (.differentiate order latex wrt.text source.trim)

/-- The command of the given name, which stands in the line at `word`. -/
def named (distance : String → String → Nat) (name : String) (word : Span) (arguments : Fragment) :
    Except (Located Fault) Command :=
  if (usages.lookup name).isSome then
    match withArguments? name arguments with
    | some command => .ok command
    | none => .error (.on (.invalidArguments (usage name)) word)
  else
    let suggestions := Text.resembling distance (usages.map (·.1)) name
    .error (.on (.unknownCommand name suggestions) word)

/-- What a line asks for. -/
def ofLine (distance : String → String → Nat) (line : String) : Except (Located Fault) Command :=
  let line := Fragment.ofLine line
  match line.splitWord? with
  | none => .ok .idle
  | some (first, rest) =>
    match first.chars with
    | ':' :: name => named distance (String.ofList name) first.span rest
    | _ => .ok (.echo line.trim)

end Command

end TraceCalculus
