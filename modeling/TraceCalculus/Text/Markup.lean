/-! # LaTeX markup shared by the printers -/

set_option autoImplicit false

namespace TraceCalculus.Text

/-- A text in braces, the argument of a command. -/
def braced (s : String) : String := "\x7b" ++ s ++ "\x7d"

/-- A text in brackets that grow with it. -/
def bracketed (s : String) : String := "\\left(" ++ s ++ "\\right)"

/-- A name set as a matrix. -/
def matrixName (name : String) : String := "\\mathbf" ++ braced name

/-- The mark of transposition. -/
def transposeMark : String := "^" ++ braced ("\\mathsf" ++ braced "T")

end TraceCalculus.Text
