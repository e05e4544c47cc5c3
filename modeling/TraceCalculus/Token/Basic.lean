import TraceCalculus.Span

/-! # Tokens of a formula -/

set_option autoImplicit false

namespace TraceCalculus

/-- The kinds of token. -/
inductive Token.Kind where
  | blank
  | plus
  | minus
  | times
  | quote
  | dot
  | openParen
  | closeParen
  | name
  | number
  /-- Any character that starts no other token. -/
  | symbol
  deriving DecidableEq

/-- A piece of the source text, with its kind and its place. -/
structure Token where
  kind : Token.Kind
  span : Span
  lexeme : String
  deriving DecidableEq

namespace Token

/-- What a kind is called in messages. -/
def Kind.label : Kind → String
  | .blank => "Whitespace"
  | .plus => "Add"
  | .minus => "Sub"
  | .times => "Mul"
  | .quote => "Quote"
  | .dot => "Dot"
  | .openParen => "OpenParen"
  | .closeParen => "CloseParen"
  | .name => "Name"
  | .number => "Number"
  | .symbol => "Symbol"

/-- Whether the token is white space. -/
def isBlank (t : Token) : Bool := t.kind == .blank

end Token

end TraceCalculus
