import TraceCalculus.Proofs.ScalarFactors

/-! # How large constructed expressions get

No constructor that simplifies makes more than one node: what it takes apart pays for what it puts
together. So a product is at most one node larger than its operands, however ill-formed these are, and
a node that is built again from its operands does not grow (`Expr.times_ends`).
-/

set_option autoImplicit false

namespace TraceCalculus.Expr

variable {S : Type} {a b c : Expr S}

theorem Transposition.size_le (h : Transposition a c) : c.size ≤ a.size + 1 := by
  cases h with
  | null | trace | scalar => exact Nat.le_succ _
  | turnBack a => exact Nat.le_add_right _ 2
  | transpose => exact Nat.le_refl _

theorem Tracing.size_le (h : Tracing a c) : c.size ≤ a.size + 1 := by
  cases h with
  | null | scalar => exact Nat.le_succ _
  | trace => exact Nat.le_refl _

variable [Scalar S]

/-- Each product that is multiplied on the way has the node of a scaled operand for its own. -/
theorem Product.size_le (h : Product a b c) : c.size ≤ a.size + b.size + 1 := by
  induction h with
  | nullLeft | nullRight | fold => simp only [size]; omega
  | oneLeft => omega
  | oneRight => omega
  | swap => omega
  | scaleLeft => simp only [size, size_asOperand]; omega
  | scaleRight | matMul => simp only [size]; omega
  | mergeLeft | mergeRight | mergeBoth | hoistLeft | hoistRight => simp only [size]; omega

/-- A doubled term is no larger than the sum, as the other term has a node, too. -/
theorem Plus.size_le (h : Plus a b c) : c.size ≤ a.size + b.size + 1 := by
  cases h with
  | nullLeft | nullRight | fold => simp only [size]; omega
  | double _ _ hc =>
    have htwice := hc.size_le
    have hb := b.size_pos
    simp only [size] at htwice
    omega
  | add => simp only [size, size_asOperand]; omega

theorem Minus.size_le (h : Minus a b c) : c.size ≤ a.size + b.size + 1 := by
  cases h with
  | nullRight | cancel | fold => simp only [size]; omega
  | nullLeft _ hc => exact hc.size_le
  | sub => simp only [size, size_asOperand]; omega

theorem size_tidied_le (e : Expr S) : e.tidied.size ≤ e.size := by
  cases e with
  | var | scalarVar | literal | null | differential => exact Nat.le_refl _
  | add a b => exact (plus_add a b).size_le
  | sub a b => exact (minus_sub a b).size_le
  | scale a b | matMul a b => exact (product_times a b).size_le
  | trace a => exact (tracing_traced a).size_le
  | transpose a => exact (transposition_transposed a).size_le

/-- Every depth that suffices for the steps of a product computes it. -/
theorem productWithin_eq_times {depth : Nat} (h : productDepth a b ≤ depth) :
    productWithin depth a b = a * b :=
  ((product_productWithin ((effort_lt_productDepth a b).trans_le h)).eq).symm

/-- The multiplication multiplies by itself what one step leaves to multiply. -/
theorem times_eq_productStep (a b : Expr S) : a * b = productStep (· * ·) a b :=
  (product_productStep fun a' b' _ => product_times a' b').eq

/-- Multiplying ends on all operands, ill-formed ones included: the steps of the product lead to its
one outcome, with products nested no deeper than a bound that the operands tell. The outcome is at
most one node larger than both operands. So building a node again does not make it larger. -/
theorem times_ends : (∀ a b : Expr S, Product a b (a * b) ∧ (∀ c, Product a b c → c = a * b) ∧
      a * b = productStep (· * ·) a b ∧
      (∀ depth, productDepth a b ≤ depth → productWithin depth a b = a * b) ∧
      (a * b).size ≤ a.size + b.size + 1) ∧
    ∀ e : Expr S, e.tidied.size ≤ e.size :=
  ⟨fun a b => ⟨product_times a b, fun _ h => h.eq.symm, times_eq_productStep a b,
    fun _ h => productWithin_eq_times h, (product_times a b).size_le⟩, size_tidied_le⟩

end TraceCalculus.Expr
