import TraceCalculus.Formula.Basic
import TraceCalculus.Scalar.Basic
import TraceCalculus.Token.Lexer

/-! # The grammar of formulas

    sum     = product | sum plus product | sum minus product
    product = signed | product times signed
    signed  = operand | minus signed
    operand = atom | operand quote | operand dot `T`
    atom    = number | name | name `(` sum `)` | `(` sum `)`

Whatever is recursive on the left associates to the left, so a minus sign binds tighter than a
product and looser than a transposition. The grammar says which tree a list of words has, and not
how it is found; places in the source are no part of it.
-/

set_option autoImplicit false

namespace TraceCalculus

/-- A token apart from its place. -/
structure Word where
  kind : Token.Kind
  lexeme : String
  deriving DecidableEq

/-- The word a token is in its place. -/
def Token.word (t : Token) : Word := ⟨t.kind, t.lexeme⟩

/-- The words of a list of tokens. White space is none. -/
def Word.ofTokens (ts : List Token) : List Word := (ts.filter fun t => !t.isBlank).map Token.word

/-- The words of a source text. -/
def Word.ofSource (source : String) : List Word := ofTokens (Token.tokenize source)

namespace Formula

/-- A formula apart from its places in the source. -/
inductive Tree (S : Type) where
  | number (value : S)
  | symbol (name : String)
  | paren (inner : Tree S)
  | neg (operand : Tree S)
  | transpose (operand : Tree S)
  | binary (op : Operator) (lhs rhs : Tree S)
  | call (name : String) (arg : Tree S)
  deriving DecidableEq

/-- The formula without the places. -/
def tree {S : Type} : Formula S → Tree S
  | .number value _ => .number value
  | .symbol name _ => .symbol name
  | .paren inner _ => .paren inner.tree
  | .neg operand _ => .neg operand.tree
  | .transpose operand _ => .transpose operand.tree
  | .binary op _ lhs rhs _ => .binary op lhs.tree rhs.tree
  | .call name _ arg _ => .call name arg.tree

/-- The levels of the grammar, the loosest first. -/
inductive Level where
  | sum
  | product
  | signed
  | operand
  | atom
  deriving DecidableEq

/-- The words derive from a level of the grammar, and this is their tree. -/
inductive Derives {S : Type} [Scalar S] : Level → List Word → Tree S → Prop where
  | ofProduct {ws : List Word} {t : Tree S} : Derives .product ws t → Derives .sum ws t
  | plus {us vs : List Word} {a b : Tree S} (sign : String) :
    Derives .sum us a → Derives .product vs b →
      Derives .sum (us ++ ⟨.plus, sign⟩ :: vs) (.binary .plus a b)
  | minus {us vs : List Word} {a b : Tree S} (sign : String) :
    Derives .sum us a → Derives .product vs b →
      Derives .sum (us ++ ⟨.minus, sign⟩ :: vs) (.binary .minus a b)
  | ofSigned {ws : List Word} {t : Tree S} : Derives .signed ws t → Derives .product ws t
  | times {us vs : List Word} {a b : Tree S} (sign : String) :
    Derives .product us a → Derives .signed vs b →
      Derives .product (us ++ ⟨.times, sign⟩ :: vs) (.binary .times a b)
  | ofOperand {ws : List Word} {t : Tree S} : Derives .operand ws t → Derives .signed ws t
  | neg {ws : List Word} {t : Tree S} (sign : String) :
    Derives .signed ws t → Derives .signed (⟨.minus, sign⟩ :: ws) (.neg t)
  | ofAtom {ws : List Word} {t : Tree S} : Derives .atom ws t → Derives .operand ws t
  | quote {ws : List Word} {t : Tree S} (mark : String) :
    Derives .operand ws t → Derives .operand (ws ++ [⟨.quote, mark⟩]) (.transpose t)
  | dot {ws : List Word} {t : Tree S} (mark : String) :
    Derives .operand ws t → Derives .operand (ws ++ [⟨.dot, mark⟩, ⟨.name, "T"⟩]) (.transpose t)
  | number (numeral : String) :
    Derives .atom [⟨.number, numeral⟩] (.number (Scalar.ofNumeral (.ofChars numeral.toList)))
  | symbol (name : String) : Derives .atom [⟨.name, name⟩] (.symbol name)
  | call {ws : List Word} {t : Tree S} (name opening closing : String) : Derives .sum ws t →
      Derives .atom (⟨.name, name⟩ :: ⟨.openParen, opening⟩ :: ws ++ [⟨.closeParen, closing⟩])
        (.call name t)
  | paren {ws : List Word} {t : Tree S} (opening closing : String) : Derives .sum ws t →
      Derives .atom (⟨.openParen, opening⟩ :: ws ++ [⟨.closeParen, closing⟩]) (.paren t)

end Formula

end TraceCalculus
