import TraceCalculus.Formula.Error
import TraceCalculus.Token.Lexer

/-! # A place among the tokens

A `Cursor` holds the tokens still to be read. White space stays among them, and is passed over by
whoever asks for the next token. A `Parser` reads from a cursor; when it fails, the cursor stands
where the reading stopped.
-/

set_option autoImplicit false

namespace TraceCalculus

/-- The tokens still to be read, and the offset of the end of the source. -/
structure Cursor where
  rest : List Token
  stop : Nat
  deriving DecidableEq

/-- A reader of tokens. -/
abbrev Parser := EStateM (Located ParseError) Cursor

namespace Cursor

/-- The cursor before the first token of a source. -/
def ofSource (source : String) : Cursor where
  rest := Token.tokenize source
  stop := ((Token.tokenize source).getLast?.map (·.span.stop)).getD 0

/-- The empty region at the end of the source. -/
def endSpan (c : Cursor) : Span := .point c.stop

/-- The region of the token at the cursor, or the end of the source. -/
def span (c : Cursor) : Span :=
  match c.rest with
  | token :: _ => token.span
  | [] => c.endSpan

/-- Passes over white space. -/
def skipBlanks (c : Cursor) : Cursor := { c with rest := c.rest.dropWhile Token.isBlank }

/-- The token at the cursor, white space included. -/
def current? (c : Cursor) : Option Token := c.rest.head?

/-- The next token that is not white space. -/
def peek? (c : Cursor) : Option Token := c.skipBlanks.current?

/-- Whether the next token that is not white space is of the given kind. -/
def facing (c : Cursor) (kind : Token.Kind) : Bool := c.peek?.any (·.kind == kind)

end Cursor

namespace Parser

variable {α : Type}

/-- Fails with a cause at a region. -/
def fail (cause : ParseError) (span : Span) : Parser α := throw (.on cause span)

/-- Fails as there is nothing left to read. -/
def ended : Parser α := fun c => .error (.on .unexpectedEnd c.endSpan) c

/-- Passes over white space. -/
def skipBlanks : Parser Unit := modify Cursor.skipBlanks

/-- Takes the next token that is not white space. -/
def next : Parser Token := fun c =>
  let c := c.skipBlanks
  match c.rest with
  | token :: rest => .ok token { c with rest }
  | [] => ended c

/-- Leaves the cursor where it was if the reader fails. -/
def restoring (p : Parser α) : Parser α := fun c =>
  match p c with
  | .ok a c' => .ok a c'
  | .error e _ => .error e c

/-- Reads to the end of the source: nothing but white space may be left over. -/
def complete (p : Parser α) : Parser α := do
  let a ← p
  skipBlanks
  let c ← get
  match c.current? with
  | none => pure a
  | some token =>
    if token.kind = .closeParen then fail (.unclosedParenthesis false) token.span
    else fail .expectedEnd (token.span.through c.endSpan)

end Parser

end TraceCalculus
