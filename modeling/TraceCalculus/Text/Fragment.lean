import TraceCalculus.Span
import TraceCalculus.Text.Blank

/-! # Parts of a line

A `Fragment` is a part of a line that knows where in the line it starts, so that whatever is said
about it can be said about the line.
-/

set_option autoImplicit false

namespace TraceCalculus.Text

/-- A part of a line and its offset there, in bytes. -/
structure Fragment where
  chars : List Char
  start : Nat
  deriving DecidableEq

namespace Fragment

/-- The whole line. -/
def ofLine (line : String) : Fragment := ⟨line.toList, 0⟩

/-- The characters as a text. -/
def text (f : Fragment) : String := String.ofList f.chars

/-- The region of the line. -/
def span (f : Fragment) : Span := ⟨f.start, f.start + byteLength f.chars⟩

/-- The fragment without the blanks at its start. -/
def trimStart (f : Fragment) : Fragment :=
  ⟨f.chars.dropWhile isBlank, f.start + byteLength (f.chars.takeWhile isBlank)⟩

/-- The fragment without the blanks at its ends. -/
def trim (f : Fragment) : Fragment := { f.trimStart with chars := trimEnd f.trimStart.chars }

/-- Whether there is nothing but blanks. -/
def isBlank (f : Fragment) : Bool := f.chars.all Text.isBlank

/-- The first word and what follows it, none if there is no word. -/
def splitWord? (f : Fragment) : Option (Fragment × Fragment) :=
  let f := f.trimStart
  if f.chars.isEmpty then none
  else
    let word := f.chars.takeWhile (!Text.isBlank ·)
    some (⟨word, f.start⟩,
      ⟨f.chars.dropWhile (!Text.isBlank ·), f.start + byteLength word⟩)

end Fragment

end TraceCalculus.Text
