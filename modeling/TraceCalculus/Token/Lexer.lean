import TraceCalculus.Token.Basic
import TraceCalculus.Text.Blank

/-! # Cutting a source text into tokens

Every character of the source belongs to exactly one token, white space included. White space,
names and numbers take as many characters as they can, and each other token is one character.
-/

set_option autoImplicit false

namespace TraceCalculus.Token

/-- The characters that separate tokens. -/
def isSeparator (c : Char) : Bool := c == ' ' || c == '\t' || c == '\n' || c == '\r'

/-- The characters a name can start with. -/
def isNameStart (c : Char) : Bool := c.isAlpha || c == '_'

/-- The characters a name can go on with. -/
def isNameRest (c : Char) : Bool := isNameStart c || c.isDigit

/-- The tokens that are a character of their own. -/
def punctuation? : Char → Option Kind
  | '+' => some .plus
  | '-' => some .minus
  | '*' => some .times
  | '\x27' => some .quote
  | '.' => some .dot
  | '(' => some .openParen
  | ')' => some .closeParen
  | _ => none

/-- Splits a text after the characters at its start that satisfy `p`. -/
def splitWhile (p : Char → Bool) (cs : List Char) : List Char × List Char :=
  (cs.takeWhile p, cs.dropWhile p)

/-- Splits a text after the numeral it starts with: digits, then perhaps a point and more digits.
A point that no digit follows is not part of the numeral. -/
def splitNumber (cs : List Char) : List Char × List Char :=
  let (whole, rest) := splitWhile Char.isDigit cs
  match rest with
  | '.' :: d :: more =>
    if d.isDigit then
      let (fraction, rest) := splitWhile Char.isDigit (d :: more)
      (whole ++ '.' :: fraction, rest)
    else (whole, rest)
  | _ => (whole, rest)

/-- The kind and the characters of the token that `c :: cs` starts with, and what follows it. -/
def split (c : Char) (cs : List Char) : Kind × List Char × List Char :=
  if isSeparator c then (.blank, splitWhile isSeparator (c :: cs))
  else if isNameStart c then (.name, splitWhile isNameRest (c :: cs))
  else if c.isDigit then (.number, splitNumber (c :: cs))
  else ((punctuation? c).getD .symbol, [c], cs)

/-- The tokens of a text that starts at `offset`. Every token takes a character, so as many steps
as there are characters suffice. -/
def scan : Nat → Nat → List Char → List Token
  | 0, _, _ => []
  | _, _, [] => []
  | steps + 1, offset, c :: cs =>
    let (kind, lexeme, rest) := split c cs
    let stop := offset + Text.byteLength lexeme
    ⟨kind, ⟨offset, stop⟩, String.ofList lexeme⟩ :: scan steps stop rest

/-- The tokens of a source text. -/
def tokenize (source : String) : List Token :=
  scan source.toList.length 0 source.toList

end TraceCalculus.Token
