import TraceCalculus.Formula.Basic
import TraceCalculus.Formula.Cursor
import TraceCalculus.Scalar.Basic

/-! # Reading a formula

A formula is read by precedence climbing. A reader of operators is told how tightly they have to bind.
It reads an operand, and then operators that bind tightly enough, each with a right operand whose own
operators bind more tightly. So operators associate to the left, and a product is read before the sum
that it is a term of. Signs in front of an operand and marks of transposition behind it bind more
tightly than any operator, and a name before a bracket is always a call.

Whether a token is an operator or a sign is found out by trying to read it. If it is none it stays
where it is, and the error is forgotten.

Loops and nested readers are bounded by the number of tokens left. Every turn and every level takes a
token, so where a bound is used up nothing is left to read.
-/

set_option autoImplicit false

namespace TraceCalculus.Formula

variable {S : Type}

/-- Reads the marks of transposition behind an operand. -/
def transposes : Nat → Formula S → Parser (Formula S)
  | 0, operand => pure operand
  | turns + 1, operand => fun c =>
    match Parser.next c with
    | .error _ _ => .ok operand c
    | .ok mark after =>
      match mark.kind with
      | .quote => transposes turns (.transpose operand (operand.span.through mark.span)) after
      | .dot =>
        match Parser.next after with
        | .error _ after => .error (.on .danglingDot mark.span) after
        | .ok letter after =>
          if letter.kind = .name ∧ letter.lexeme = "T" then
            transposes turns (.transpose operand (operand.span.through letter.span)) after
          else .error (.on .danglingDot mark.span) after
      | _ => .ok operand c

/-- Reads a formula in brackets, and the region from one bracket to the other. -/
def bracketed (inner : Parser (Formula S)) : Parser (Formula S × Span) := do
  let opening ← Parser.next
  match (← get).peek? with
  | some closing =>
    if closing.kind = .closeParen then
      Parser.fail .emptyParenthesis (opening.span.through closing.span)
  | none => pure ()
  let formula ← inner
  fun c =>
    match Parser.next c with
    | .error _ after => .error (.on (.unclosedParenthesis true) opening.span) after
    | .ok closing after =>
      if closing.kind = .closeParen then .ok (formula, opening.span.through closing.span) after
      else .error (.on (.unclosedParenthesis true) opening.span) after

/-- Reads a number, a name, a call or a formula in brackets. -/
def atom [Scalar S] (inner : Parser (Formula S)) : Parser (Formula S) := do
  if (← get).facing .openParen then
    let (formula, span) ← bracketed inner
    return .paren formula span
  let token ← Parser.next
  match token.kind with
  | .number => return .number (Scalar.ofNumeral (.ofChars token.lexeme.toList)) token.span
  | .name =>
    if (← get).facing .openParen then
      let (arg, span) ← bracketed inner
      return .call token.lexeme token.span arg (token.span.through span)
    else return .symbol token.lexeme token.span
  | .closeParen => Parser.fail (.unclosedParenthesis false) token.span
  | found => Parser.fail (.unexpectedToken found) token.span

/-- Reads an atom with its marks of transposition. -/
def operand [Scalar S] (inner : Parser (Formula S)) : Parser (Formula S) := do
  let formula ← atom inner
  transposes (← get).rest.length formula

/-- Reads a minus sign. Any other token is left for others. -/
def sign : Parser Token := Parser.restoring do
  let token ← Parser.next
  if token.kind = .minus then return token else Parser.fail .nonFatal token.span

/-- Reads an operand behind any number of minus signs. -/
def signed [Scalar S] (inner : Parser (Formula S)) : Nat → Parser (Formula S)
  | 0 => Parser.ended
  | turns + 1 => fun c =>
    match sign c with
    | .error _ c => operand inner c
    | .ok minus c =>
      match signed inner turns c with
      | .error e c => .error e c
      | .ok formula c => .ok (.neg formula (minus.span.through formula.span)) c

/-- The operator that a token stands for. -/
def operator? : Token.Kind → Option Operator
  | .plus => some .plus
  | .minus => some .minus
  | .times => some .times
  | _ => none

/-- Reads an operator that binds at least as tightly as `min`. Any other token is left for others. -/
def operator (min : Precedence) : Parser (Operator × Span) := Parser.restoring do
  let token ← Parser.next
  match operator? token.kind with
  | none => Parser.fail .nonFatal token.span
  | some op =>
    if min ≤ op.precedence then return (op, token.span) else Parser.fail .nonFatal token.span

/-- Reads further operands behind `lhs`, each after an operator that binds at least as tightly as
`min`, and joins them from the left. The operators in an operand on the right bind more tightly than
the one before it. -/
def climb (expression : Precedence → Parser (Formula S)) (min : Precedence) :
    Nat → Formula S → Parser (Formula S)
  | 0, lhs => pure lhs
  | turns + 1, lhs => fun c =>
    match operator min c with
    | .error _ c => .ok lhs c
    | .ok (op, span) c =>
      match expression op.precedence.tighter c with
      | .error e c => .error e c
      | .ok rhs c =>
        climb expression min turns (.binary op span lhs rhs (lhs.span.through rhs.span)) c

/-- Reads a formula whose operators outside brackets all bind at least as tightly as `min`. Each
formula inside it, in brackets or on the right of an operator, stands behind a token, so they are
nested no deeper than there are tokens. -/
def expression [Scalar S] : Nat → Precedence → Parser (Formula S)
  | 0, _ => Parser.ended
  | depth + 1, min => do
    let lhs ← signed (expression depth .any) (← get).rest.length
    climb (expression depth) min (← get).rest.length lhs

/-- Reads a formula. -/
def parser [Scalar S] : Parser (Formula S) := fun c => expression c.rest.length .any c

/-- Reads a whole source text as a formula. -/
def parse [Scalar S] (source : String) : Except (Located ParseError) (Formula S) :=
  match Parser.complete parser (Cursor.ofSource source) with
  | .ok formula _ => .ok formula
  | .error e _ => .error e

end TraceCalculus.Formula
