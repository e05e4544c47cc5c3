/-! # Positions in a source text -/

set_option autoImplicit false

namespace TraceCalculus

/-- A region of a source text, in bytes of its UTF-8 form; `stop` is exclusive. -/
structure Span where
  start : Nat
  stop : Nat
  deriving DecidableEq

namespace Span

/-- The empty region at an offset. -/
def point (offset : Nat) : Span := ⟨offset, offset⟩

/-- From the start of one region to the end of another. -/
def through (first last : Span) : Span := ⟨first.start, last.stop⟩

/-- The region in a text that has `offset` more bytes before it. -/
def shift (offset : Nat) (s : Span) : Span := ⟨s.start + offset, s.stop + offset⟩

end Span

end TraceCalculus
