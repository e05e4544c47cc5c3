import TraceCalculus.Notice
import TraceCalculus.Token.Basic

/-! # Why a source text is not a formula -/

set_option autoImplicit false

namespace TraceCalculus

/-- The causes for which a source text is refused. -/
inductive ParseError where
  /-- No token of the kind that a reader looks for is next. Whoever called the reader goes on without
  it, so no source text is refused for this. -/
  | nonFatal
  | unexpectedEnd
  | expectedEnd
  | unexpectedToken (found : Token.Kind)
  /-- A bracket without a partner; `opening` tells which of the two it is. -/
  | unclosedParenthesis (opening : Bool)
  | emptyParenthesis
  /-- A point after an operand that is not followed by `T`. -/
  | danglingDot
  deriving DecidableEq

namespace ParseError

/-- The kinds of token a formula can start with. -/
def starters : List Token.Kind := [.name, .number, .openParen, .minus]

/-- The wording of each cause. -/
def notice : ParseError → Notice
  | .nonFatal =>
    { message := "an internal non-fatal error occurred while parsing"
      label := "here"
      help := some "you should never see this error; please report this as a bug" }
  | .unexpectedEnd =>
    { message := "unexpected end of input"
      label := "you might need to add another expression here" }
  | .expectedEnd =>
    { message := "expected end of input"
      label := "I could not understand the remaining expression here" }
  | .unexpectedToken found =>
    { message := "unexpected token"
      label := "expected one of: " ++ ", ".intercalate (starters.map Token.Kind.label)
      help := some ("found " ++ found.label) }
  | .unclosedParenthesis opening =>
    { message := "unclosed parenthesis"
      label := "this parenthesis is not closed"
      help := some (if opening then "add a closing parenthesis `)` somewhere after this"
        else "add an opening parenthesis `(` somewhere before this") }
  | .emptyParenthesis =>
    { message := "missing expression inside parenthesis"
      label := "add an expression here" }
  | .danglingDot =>
    { message := "invalid postfix operator"
      label := "expected `T` after this dot"
      help := some "write X.T or X' to transpose an expression" }

end ParseError

end TraceCalculus
