import TraceCalculus.Canonical.Run
import TraceCalculus.Session.Command

/-! # Sessions

A session answers one line after another. Between lines it keeps the names declared as scalars,
whether steps are shown, and the budget. A line that is refused changes none of them.
-/

set_option autoImplicit false

namespace TraceCalculus

open Text (Fragment)

/-- The number of steps a new session allows. -/
def defaultBudget : Nat := 10000

/-- What is kept between lines. -/
structure Session where
  declared : Declarations := {}
  /-- Whether the steps of canonicalization are shown. -/
  showSteps : Bool := false
  options : Canonical.Options := { budget := some defaultBudget }

/-- What a result may come with. -/
inductive Warning (S : Type) where
  | opaqueDifferential (e : OpaqueDifferential)
  | budgetSpent (e : Canonical.BudgetSpent S)

/-- The wording of each warning. -/
def Warning.notice {S : Type} [Scalar S] : Warning S → Notice
  | .opaqueDifferential e => e.notice
  | .budgetSpent e => e.notice

/-- The answer to a line. -/
structure Answer (S : Type) where
  text : String := ""
  warnings : List (Located (Warning S)) := []

/-- What becomes of a line. -/
inductive Reply (S : Type) where
  | answer (output : Answer S)
  | refusal (e : Located Fault)
  /-- The fuel did not suffice for an answer. -/
  | outOfFuel

namespace Session

variable {S : Type} [Scalar S]

/-- Reads an expression from a part of a line. Errors point into the line. -/
def read (session : Session) (source : Fragment) : Except (Located Fault) (Expr S) :=
  match Expr.read session.declared source.text with
  | .ok e => .ok e
  | .error e => .error ((e.mapCause .reading).within source.span)

/-- Canonicalizes an expression that was read from `source`, and adds the outcome to what the
answer has so far: first the steps if they are shown, then what `finish` makes of the canonical
form. -/
def canonicalize (session : Session) (fuel : Nat) (source : Fragment) (e : Expr S)
    (warnings : List (Located (Warning S))) (finish : Expr S → String) : Reply S :=
  let record := Canonical.run session.options fuel e
  let shown := if session.showSteps then record.steps else []
  let steps := String.join (shown.map (·.text ++ "\n"))
  match record.outcome with
  | .outOfFuel => .outOfFuel
  | .converged result => .answer ⟨steps ++ finish result, warnings⟩
  | .exhausted e =>
    let warning := Located.on (Warning.budgetSpent e) source.span
    .answer ⟨steps ++ finish e.remainder, warnings ++ [warning]⟩

/-- Differentiates an expression that was read from `source`. -/
def differentiate (session : Session) (fuel : Nat) (order : DiffOrder) (latex : Bool)
    (wrt : String) (source : Fragment) (e : Expr S) : Reply S :=
  let raw := e.derivative wrt order
  let warnings := (e.derivativeNotes wrt order).map fun note =>
    Located.on (Warning.opaqueDifferential note) source.span
  session.canonicalize fuel source raw warnings fun canonical =>
    if latex then e.derivativeLatex wrt canonical order
    else raw.text ++ "\n= " ++ canonical.text

/-- Answers about an expression, once it has been read. -/
def withExpr (session : Session) (source : Fragment) (answer : Expr S → Reply S) : Reply S :=
  match session.read source with
  | .ok e => answer e
  | .error e => .refusal e

/-- A text without the blanks at its end. -/
def withoutTrailingBlanks (s : String) : String := String.ofList (Text.trimEnd s.toList)

/-- Carries out a command. -/
def execute (session : Session) (fuel : Nat) : Command → Reply S × Session
  | .idle => (.answer {}, session)
  | .echo source =>
    (session.withExpr source fun e : Expr S => .answer { text := e.text }, session)
  | .differentiate order latex wrt source =>
    (session.withExpr source (session.differentiate fuel order latex wrt source), session)
  | .canonicalize source =>
    (session.withExpr source fun e => session.canonicalize fuel source e [] Expr.text, session)
  | .tree source =>
    (session.withExpr source fun e : Expr S =>
      .answer { text := withoutTrailingBlanks e.tree }, session)
  | .declare names =>
    let declared := names.foldl Declarations.declare session.declared
    (.answer { text := "scalars: " ++ ", ".intercalate declared.scalars.toList },
      { session with declared })
  | .steps shown =>
    (.answer { text := if shown then "steps on" else "steps off" },
      { session with showSteps := shown })
  | .budget limit =>
    let text := match limit with
      | some n => "budget " ++ String.ofList (Nat.toDigits 10 n) ++ " rewrites"
      | none => "budget off"
    (.answer { text },
      { session with options := { session.options with budget := limit } })
  | .help => (.answer { text := Command.helpText }, session)

/-- Answers a line. -/
def run (session : Session) (fuel : Nat) (line : String) : Reply S × Session :=
  match Command.ofLine session.declared.distance line with
  | .ok command => session.execute fuel command
  | .error e => (.refusal e, session)

/-- Answers lines in turn. -/
def runAll (session : Session) (fuel : Nat) : List String → List (Reply S)
  | [] => []
  | line :: rest =>
    let (reply, session) := session.run fuel line
    reply :: session.runAll fuel rest

end Session

end TraceCalculus
