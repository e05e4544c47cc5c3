import Mathlib.Algebra.Ring.Int.Defs
import TraceCalculus.Expr.Build

/-! # Exact scalars

Doubles satisfy few laws. What is proved about values is proved for scalars that form a commutative
ring on which `==` is equality, so that nothing is lost by rounding. Over such scalars two
expressions compare equal exactly when they are equal (`Expr.beq_iff`), and a literal is the same
operand wherever it stands (`Expr.asOperand_exact`).
-/

set_option autoImplicit false

namespace TraceCalculus

/-- A commutative ring whose elements can be compared, as a type of scalars. -/
class ExactScalar (S : Type) extends Scalar S, CommRing S where
  /-- The test for equality is exact. -/
  beq_iff (x y : S) : (x == y) = true ↔ x = y
  /-- Two operands are told apart by their numbers only. -/
  alike_eq (x y : S) : Scalar.alike x y = (x == y)
  anew_eq (x : S) : Scalar.anew x = x
  placed_eq (n : Nat) (x : S) : Scalar.placed n x = x

/-- The integers. A numeral stands for its whole part. -/
instance : ExactScalar Int :=
  { (inferInstance : CommRing Int) with
    beq := fun x y => decide (x = y)
    ofNumeral := fun n => n.digits / 10 ^ n.places
    text := fun x => toString x
    entryText := fun x => toString x
    key := fun x => hash x
    beq_iff := fun _ _ => decide_eq_true_iff
    alike_eq := fun _ _ => rfl
    anew_eq := fun _ => rfl
    placed_eq := fun _ _ => rfl }

namespace Expr

variable {S : Type} [ExactScalar S]

theorem sameOperand_iff (a b : Expr S) : a.sameOperand b = true ↔ a = b := by
  induction a generalizing b with
  | var | scalarVar | null => cases b <;> simp [sameOperand]
  | literal => cases b <;> simp [sameOperand, ExactScalar.alike_eq, ExactScalar.beq_iff]
  | differential inner ih | trace inner ih | transpose inner ih =>
    cases b <;> simp [sameOperand, ih]
  | add lhs rhs ihl ihr | sub lhs rhs ihl ihr | scale lhs rhs ihl ihr | matMul lhs rhs ihl ihr =>
    cases b <;> simp [sameOperand, ihl, ihr]

theorem beq_iff (a b : Expr S) : (a == b) = true ↔ a = b := by
  rw [← sameOperand_iff, ← same_eq_sameOperand ExactScalar.alike_eq]
  rfl

instance : LawfulBEq (Expr S) where
  eq_of_beq := fun {a b} => (beq_iff a b).1
  rfl := fun {a} => (beq_iff a a).2 rfl

instance : DecidableEq (Expr S) := fun a b => decidable_of_iff _ (beq_iff a b)

@[simp] theorem asOperand_exact (e : Expr S) : e.asOperand = e :=
  asOperand_eq_self ExactScalar.anew_eq e

end Expr

end TraceCalculus
