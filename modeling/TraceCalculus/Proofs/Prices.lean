import TraceCalculus.Proofs.Bulk

/-! # Prices

A pricing (`Pricing`) sets the price of each name and of each number, where a number that comes out
of a calculation costs no more than what went into it. The price of an expression is that of the
products it multiplies out to: products cost the product of their factors, sums the sum of their
terms, and a trace or a differential doubles the price.

No constructor and no rule raises the price, whatever the pricing (`Expr.Cheaper`). This holds for
expressions that are not simplified, too. As transposes are free, the cost counts one on top, and
below a neat node everything costs less than the node (`Expr.Neat.cost_lt`).
-/

set_option autoImplicit false

namespace TraceCalculus

variable {S : Type} [Scalar S]

/-- Prices of names and numbers under which calculating is not worth its while. -/
structure Pricing (S : Type) [Scalar S] [CongruentScalar S] where
  name : String → Nat
  number : S → Nat
  two_le_name (s : String) : 2 ≤ name s
  two_le_number (x : S) : 2 ≤ number x
  number_congr {x y : S} : CongruentScalar.Equivalent x y → number x = number y
  number_two : number Scalar.two = 2
  number_neg_one : number (-1) = 2
  number_add (x y : S) : number (x + y) ≤ number x + number y
  number_sub (x y : S) : number (x - y) ≤ number x + number y
  number_mul (x y : S) : number (x * y) ≤ number x + number y

namespace Expr

section Prices

variable [CongruentScalar S]

/-- The price of an expression. -/
@[simp] def price (p : Pricing S) : Expr S → Nat
  | .var s | .scalarVar s => p.name s
  | .literal x => p.number x
  | .null => 2
  | .add a b => a.price p + b.price p
  | .sub a b => a.price p + 2 * b.price p
  | .scale a b | .matMul a b => a.price p * b.price p
  | .differential a | .trace a => 2 * a.price p
  | .transpose a => a.price p

/-- Whether a transpose is at the top. -/
def isTransposed : Expr S → Bool
  | .transpose _ => true
  | _ => false

/-- Twice the price, and one more for a transpose at the top. -/
def cost (p : Pricing S) (e : Expr S) : Nat := 2 * e.price p + e.isTransposed.toNat

/-- Under no pricing does `r` cost more than `e`. -/
def Cheaper (e r : Expr S) : Prop := ∀ p : Pricing S, r.cost p ≤ e.cost p

variable {p : Pricing S} {a b c e r : Expr S}

theorem cheaper_self (e : Expr S) : Cheaper e e := fun _ => Nat.le_refl _

theorem Cheaper.trans (h : Cheaper a b) (h' : Cheaper b c) : Cheaper a c :=
  fun p => (h' p).trans (h p)

theorem two_le_price (p : Pricing S) (e : Expr S) : 2 ≤ e.price p := by
  induction e with
  | var s | scalarVar s => exact p.two_le_name s
  | literal x => exact p.two_le_number x
  | null => exact Nat.le_refl 2
  | scale a b iha ihb | matMul a b iha ihb =>
    exact iha.trans (Nat.le_mul_of_pos_right _ (Nat.zero_lt_two.trans_le ihb))
  | transpose a ih => exact ih
  | _ => simp only [price]; omega

theorem cost_le (p : Pricing S) (e : Expr S) : e.cost p ≤ 2 * e.price p + 1 :=
  Nat.add_le_add_left (Bool.toNat_le e.isTransposed) _

theorem cost_eq (h : e.isTransposed = false) : e.cost p = 2 * e.price p := by
  simp [cost, h]

theorem price_le_of_cost_le (h : r.cost p ≤ e.cost p) : r.price p ≤ e.price p := by
  have ht := Bool.toNat_le e.isTransposed
  unfold cost at h
  omega

theorem Cheaper.price_le (h : Cheaper e r) (p : Pricing S) : r.price p ≤ e.price p :=
  price_le_of_cost_le (h p)

theorem Congruent.price_eq (h : a.Congruent b) : a.price p = b.price p := by
  induction h with
  | literal h => exact p.number_congr h
  | add _ _ iha ihb | sub _ _ iha ihb | scale _ _ iha ihb | matMul _ _ iha ihb =>
    simp only [price, iha, ihb]
  | differential _ ih | trace _ ih | transpose _ ih => simp only [price, ih]
  | _ => rfl

theorem Congruent.cheaper (h : a.Congruent b) : Cheaper a b := by
  have ht : a.isTransposed = b.isTransposed := by cases h <;> rfl
  intro p
  rw [cost, cost, h.price_eq, ht]

/-- An operand costs less than its node, unless that is its transpose. -/
theorem cost_lt_or_of_mem_children (ha : a ∈ e.children) :
    a.cost p < e.cost p ∨ e = .transpose a := by
  have hle := a.cost_le p
  have hprice := a.two_le_price p
  cases e <;> simp only [children, List.mem_cons, List.not_mem_nil, or_false] at ha
  case transpose => exact .inr (by rw [ha])
  case differential | trace =>
    subst ha
    left
    simp only [cost_eq (e := .differential a) rfl, cost_eq (e := .trace a) rfl, price]
    omega
  case add x y | sub x y =>
    have hx := x.two_le_price p
    have hy := y.two_le_price p
    left
    simp only [cost_eq (e := .add x y) rfl, cost_eq (e := .sub x y) rfl, price]
    rcases ha with rfl | rfl <;> omega
  case scale x y | matMul x y =>
    have hx := x.two_le_price p
    have hy := y.two_le_price p
    left
    simp only [cost_eq (e := .scale x y) rfl, cost_eq (e := .matMul x y) rfl, price]
    rcases ha with rfl | rfl <;> nlinarith

theorem cost_le_of_mem_children (ha : a ∈ e.children) : a.cost p ≤ e.cost p := by
  rcases cost_lt_or_of_mem_children ha with h | rfl
  · exact h.le
  · exact a.cost_le p

end Prices

variable [NumericScalar S] {p : Pricing S} {a b c e r : Expr S}

/-- In a neat expression everything costs less than the node it is an operand of. -/
theorem Neat.cost_lt (he : e.Neat) (ha : a ∈ e.children) : a.cost p < e.cost p := by
  rcases cost_lt_or_of_mem_children ha with h | rfl
  · exact h
  · have ht : a.isTransposed = false := by
      cases a <;> first | rfl | cases he.2
    rw [cost_eq ht]
    exact Nat.lt_succ_self _

/-! ## What the constructors make -/

/-- A transpose comes of a product only where a factor is left out. -/
theorem Product.price_add_le (h : Product a b c) :
    c.price p + c.isTransposed.toNat ≤ a.price p * b.price p := by
  refine h.measure_le (m := price p) (n := fun e => e.price p + e.isTransposed.toNat)
    (fun _ => Nat.le_add_right _ _) (fun _ _ => rfl) (fun _ _ => rfl) (fun _ _ => rfl)
    (fun a => by rw [asOperand_numeric]) (fun a => ?_) (fun x y => ?_) fun x b => ?_
  · exact Nat.le_mul_of_pos_right _ (Nat.zero_lt_two.trans_le (a.two_le_price p))
  · have hx := p.two_le_number x
    have hy := p.two_le_number y
    have hxy := p.number_mul x y
    simp only [price, isTransposed, Bool.toNat_false]
    nlinarith
  · have hx := p.two_le_number x
    have hb := b.two_le_price p
    have ht := Bool.toNat_le b.isTransposed
    simp only [price]
    nlinarith

theorem Plus.price_add_le (h : Plus a b c) :
    c.price p + c.isTransposed.toNat ≤ a.price p + b.price p := by
  have ha := a.two_le_price p
  have hb := b.two_le_price p
  have ht := Bool.toNat_le c.isTransposed
  cases h with
  | nullLeft | nullRight => simp only [price]; omega
  | fold x y => exact p.number_add x y
  | double _ heq hc =>
    have hprice := (Congruent.of_beq heq).price_eq (p := p)
    have hle := hc.price_add_le (p := p)
    simp only [price, p.number_two] at hle
    omega
  | add => simp only [asOperand_numeric]; exact Nat.le_refl _

theorem Minus.price_add_le (h : Minus a b c) :
    c.price p + c.isTransposed.toNat ≤ a.price p + 2 * b.price p := by
  have ha := a.two_le_price p
  have hb := b.two_le_price p
  have ht := Bool.toNat_le c.isTransposed
  cases h with
  | nullRight => omega
  | nullLeft _ hc =>
    have hle := hc.price_add_le (p := p)
    simp only [price, p.number_neg_one] at hle
    omega
  | cancel => simp only [price, isTransposed, Bool.toNat_false]; omega
  | @fold x y =>
    have hle := p.number_sub x y
    simp only [price, isTransposed, Bool.toNat_false] at hb ⊢
    omega
  | sub => simp only [asOperand_numeric]; exact Nat.le_refl _

theorem Tracing.price_add_le (h : Tracing a c) :
    c.price p + c.isTransposed.toNat ≤ 2 * a.price p := by
  have ha := a.two_le_price p
  have ht := Bool.toNat_le c.isTransposed
  cases h with
  | null | scalar => omega
  | trace => exact Nat.le_refl _

/-- A transpose costs the same as what it is of. -/
theorem Transposition.price_eq (h : Transposition a c) : c.price p = a.price p := by
  cases h <;> rfl

theorem cost_le_of_price (h : r.price p + r.isTransposed.toNat ≤ e.price p) :
    r.cost p ≤ e.cost p := by
  unfold cost
  omega

/-- A node that is built again over operands that are cheaper is cheaper. -/
theorem cheaper_of_rebuilt (h : Canonical.Rebuilt Cheaper e r) : Cheaper e r := by
  intro p
  cases h with
  | var | scalarVar | literal | null => exact Nat.le_refl _
  | @differential a a' ha =>
    have hle := ha.price_le p
    rw [asOperand_numeric]
    refine cost_le_of_price ?_
    simp only [price, isTransposed, Bool.toNat_false]
    omega
  | @add a a' b b' ha hb =>
    have hle := (plus_add a' b').price_add_le (p := p)
    exact cost_le_of_price (hle.trans (Nat.add_le_add (ha.price_le p) (hb.price_le p)))
  | @sub a a' b b' ha hb =>
    have hle := (minus_sub a' b').price_add_le (p := p)
    exact cost_le_of_price
      (hle.trans (Nat.add_le_add (ha.price_le p) (Nat.mul_le_mul_left 2 (hb.price_le p))))
  | @scale a a' b b' ha hb | @matMul a a' b b' ha hb =>
    have hle := (product_times a' b').price_add_le (p := p)
    exact cost_le_of_price (hle.trans (Nat.mul_le_mul (ha.price_le p) (hb.price_le p)))
  | @trace a a' ha =>
    have hle := (tracing_traced a').price_add_le (p := p)
    exact cost_le_of_price (hle.trans (Nat.mul_le_mul_left 2 (ha.price_le p)))
  | @transpose a a' ha =>
    have hle := ha.price_le p
    have heq := (transposition_transposed a').price_eq (p := p)
    have hcost := a'.transposed.cost_le p
    have htop : (transpose a).cost p = 2 * a.price p + 1 := rfl
    omega

/-! ## What rules make -/

theorem Filled.cheaper {P : Expr S → Prop} {a b : Expr S} (h : Filled P a b) : Cheaper a b := by
  induction h with
  | kept => exact cheaper_self _
  | add _ _ iha ihb => exact cheaper_of_rebuilt (.add iha ihb)
  | sub _ _ iha ihb => exact cheaper_of_rebuilt (.sub iha ihb)
  | scale _ _ _ ihb => exact cheaper_of_rebuilt (.scale (cheaper_self _) ihb)
  | matMul _ _ iha ihb => exact cheaper_of_rebuilt (.matMul iha ihb)
  | trace _ iha => exact cheaper_of_rebuilt (.trace iha)
  | transpose _ iha => exact cheaper_of_rebuilt (.transpose iha)

end Expr

namespace Stage

variable [NumericScalar S] {stage : Stage} {rule : Rule S} {σ : Assignment S} {e : Expr S}
  {m : RuleMatch S}

/-- Rules keep the price, and no replacement is a transpose. -/
theorem price_replacement (p : Pricing S) (hr : rule ∈ stage.rules) :
    (rule.replacement.instantiate σ).price p = (rule.pattern.instantiate σ).price p ∧
      (rule.replacement.instantiate σ).isTransposed = false := by
  refine forall_rules (P := fun rule =>
    (rule.replacement.instantiate σ).price p = (rule.pattern.instantiate σ).price p ∧
      (rule.replacement.instantiate σ).isTransposed = false) ?_ ?_ ?_ hr <;>
    simp only [isolating, normalizing, collecting, List.forall_mem_cons, Expr.instantiate,
      Expr.price, Expr.isTransposed, List.not_mem_nil, false_imp_iff, implies_true, and_true,
      true_and]
  all_goals and_intros <;> ring

theorem cheaper_output (hm : m ∈ ruleMatches e stage.rules) : Expr.Cheaper e m.output := by
  obtain ⟨hr, hmatch⟩ := mem_ruleMatches hm
  have hcong := Expr.congruent_of_matchAgainst hmatch
  have hfilled := RuleMatch.filled_output hm
  refine Expr.Cheaper.trans (fun p => ?_) hfilled.cheaper
  obtain ⟨hprice, htop⟩ := price_replacement (σ := m.assignment) p hr
  refine Expr.cost_le_of_price ?_
  rw [htop, hprice, hcong.price_eq]
  exact Nat.le_refl _

end Stage

namespace Canonical

variable [NumericScalar S]

/-- Whatever a stage starts with, it ends with something cheaper. -/
theorem respected_cheaper (stage : Stage) :
    Respected (fun _ => True) stage (Expr.Cheaper : Expr S → Expr S → Prop) where
  operand _ _ := trivial
  result _ _ := trivial
  trans := Expr.Cheaper.trans
  recalled heq h := (Expr.Congruent.of_beq heq).symm.cheaper.trans h
  self _ _ := Expr.cheaper_self _
  rebuilt _ := Expr.cheaper_of_rebuilt
  rule _ _ := Stage.cheaper_output

end Canonical

end TraceCalculus
