import TraceCalculus.Expr.Basic
import TraceCalculus.Scalar.Tracked

/-! # Tracking the operands of an expression

The result of a calculation with tracked doubles is tracked under a number of its own. After that
its copies are the same operand, also where a literal is not a number (`track_sameOperand_self`),
while a result calculated anew from the same parts is another one.
-/

set_option autoImplicit false

namespace TraceCalculus

/-- The origin of a literal at place `p` of the result with number `n`. An operand that came from an
earlier result keeps its origin. -/
def Origin.track (n p : Nat) : Option Origin → Origin
  | none => .result n p
  | some (.place q) => .before n q
  | some origin => origin

/-- A literal at place `p` of the result with number `n`. -/
def Tracked.track (n p : Nat) (x : Tracked) : Tracked := ⟨x.value, some (.track n p x.origin)⟩

namespace Expr

/-- The expression as the result with number `n`: every literal has an origin. -/
def track (n : Nat) (e : Expr Tracked) : Expr Tracked := e.mapLiterals (Tracked.track n) 0

/-- An expression of doubles as the result with number `n`, all of whose literals were new. -/
def numbered (n : Nat) (e : Expr Float) : Expr Tracked :=
  e.mapLiterals (fun p x => Tracked.track n p ⟨x, none⟩) 0

/-- If the literals are alike themselves, so is the expression, wherever the counting of places
starts. -/
theorem mapLiterals_sameOperand_self {S T : Type} [Scalar T] {f : Nat → S → T}
    (h : ∀ p x, Scalar.alike (f p x) (f p x) = true) (start : Nat) (e : Expr S) :
    (e.mapLiterals f start).sameOperand (e.mapLiterals f start) = true := by
  induction e generalizing start with
  | var | scalarVar | null => simp [mapLiterals, sameOperand]
  | literal value => exact h start value
  | differential inner ih | trace inner ih | transpose inner ih => exact ih start
  | add lhs rhs ihl ihr | sub lhs rhs ihl ihr | scale lhs rhs ihl ihr | matMul lhs rhs ihl ihr =>
    exact Bool.and_eq_true_iff.mpr ⟨ihl start, ihr _⟩

/-- A tracked expression is the same operand as its copies. -/
theorem track_sameOperand_self (n : Nat) (e : Expr Tracked) :
    (e.track n).sameOperand (e.track n) = true :=
  mapLiterals_sameOperand_self (fun _ _ => Tracked.alike_self rfl) 0 e

/-- So is a numbered one. -/
theorem numbered_sameOperand_self (n : Nat) (e : Expr Float) :
    (e.numbered n).sameOperand (e.numbered n) = true :=
  mapLiterals_sameOperand_self (fun _ _ => Tracked.alike_self rfl) 0 e

end Expr

end TraceCalculus
