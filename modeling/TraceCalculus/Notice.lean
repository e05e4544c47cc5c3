import TraceCalculus.Span

/-! # What the user is told

Each kind of failure is a type of causes. A cause is worded as a `Notice`, and a cause together
with the regions of the source it concerns is `Located`.
-/

set_option autoImplicit false

namespace TraceCalculus

/-- How bad it is: a warning comes with a result, an error in place of one. -/
inductive Severity where
  | error
  | warning
  deriving DecidableEq

/-- The words a cause is reported in. -/
structure Notice where
  severity : Severity := .error
  message : String
  /-- What is written at the region the notice points at. -/
  label : String
  help : Option String := none
  deriving DecidableEq

/-- A cause with the regions of the source it concerns, none if it has no position of its own. -/
structure Located (ε : Type) where
  cause : ε
  spans : List Span
  deriving DecidableEq

namespace Located

variable {ε δ : Type}

/-- A cause that concerns one region. -/
def on (cause : ε) (span : Span) : Located ε := ⟨cause, [span]⟩

/-- The same regions with the cause seen as one of a larger kind. -/
def mapCause (f : ε → δ) (e : Located ε) : Located δ := ⟨f e.cause, e.spans⟩

/-- Moves the regions of a cause found in a part of a line to where they are in the line. A cause
without a region concerns the whole part. -/
def within (part : Span) (e : Located ε) : Located ε :=
  match e.spans with
  | [] => ⟨e.cause, [part]⟩
  | spans => ⟨e.cause, spans.map (Span.shift part.start)⟩

end Located

/-- A name in quotes, as it appears in messages. -/
def quoted (name : String) : String := "`" ++ name ++ "`"

end TraceCalculus
