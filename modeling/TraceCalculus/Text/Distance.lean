/-! # Edit distance

The number of insertions, deletions and substitutions of single characters that turn one text into
another. Misspelt names are answered with the known names at a distance below two, whatever the
distance is.
-/

set_option autoImplicit false

namespace TraceCalculus.Text

/-- The row of the distance table that follows `row`, for one more character `a` on the left.
`corner` is the entry above and to the left of the first one to fill in, `left` the one just to its
left. -/
def nextRow (a : Char) : List Char → List Nat → Nat → Nat → List Nat
  | b :: bs, above :: row, corner, left =>
    let here := min (min (above + 1) (left + 1)) (if a = b then corner else corner + 1)
    here :: nextRow a bs row above here
  | _, _, _, _ => []

/-- The last row of the distance table: the distances of `as` from the initial parts of `bs`,
the empty one first, when `row` has those of the characters already read. -/
def lastRow (bs : List Char) : List Char → List Nat → List Nat
  | [], row => row
  | a :: as, row =>
    match row with
    | [] => []
    | corner :: rest => lastRow bs as ((corner + 1) :: nextRow a bs rest corner (corner + 1))

/-- The edit distance of two texts. -/
def distance (s t : String) : Nat :=
  let bs := t.toList
  (lastRow bs s.toList (List.range (bs.length + 1))).getLastD 0

/-- The known names that a name resembles. -/
def resembling (distance : String → String → Nat) (known : List String) (name : String) :
    List String :=
  known.filter (distance · name < 2)

end TraceCalculus.Text
