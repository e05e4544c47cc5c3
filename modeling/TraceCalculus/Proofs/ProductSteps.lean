import Mathlib.Tactic.Linarith
import TraceCalculus.Expr.Build

/-! # How a product is built

`Expr.Product a b c` says that `c` is the product of `a` and `b`, by the steps the multiplication
takes: absorbing, folding, merging a scalar with the factor of a scaled operand, hoisting factors
out of a matrix product. Facts about products are proved by induction on it.

The multiplication itself recurses to a given depth. `product_times` says that the depth it is
given always suffices, for ill-formed operands too. The argument is `effort`, which every recursive
call decreases. The operands of a call may be products that were just built, and such a product can
have one scaled node more than its operands had; but then it is a scalar times something that is not
scaled (`Product.headNormal`), and little is left to do with it.
-/

set_option autoImplicit false

namespace TraceCalculus.Expr

variable {S : Type}

theorem scaled?_eq_some {e s b : Expr S} : e.scaled? = some (s, b) ↔ e = .scale s b := by
  cases e <;> simp [scaled?]

theorem value?_eq_some {e : Expr S} {x : S} : e.value? = some x ↔ e = .literal x := by
  cases e <;> simp [value?]

theorem isNull_iff {e : Expr S} : e.isNull = true ↔ e = .null := by
  cases e <;> simp [isNull]

theorem isNull_eq_false {e : Expr S} (h : e ≠ .null) : e.isNull = false := by
  rw [← Bool.not_eq_true, isNull_iff]
  exact h

theorem isNull_eq_false_of_isScalar {e : Expr S} (h : e.isScalar = true) : e.isNull = false := by
  refine isNull_eq_false ?_
  rintro rfl
  cases h

theorem value?_eq_none_of_isScalar_eq_false {e : Expr S} (h : e.isScalar = false) :
    e.value? = none := by
  cases e <;> simp_all [value?, isScalar]

/-- The number of scaled nodes that can be reached through scaled nodes only. -/
def layers : Expr S → Nat
  | .scale factor body => factor.layers + body.layers + 1
  | _ => 0

/-- A scalar times something that is neither scaled nor a literal, as a product leaves it. -/
def headNormal : Expr S → Bool
  | .scale factor body => factor.isScalar && body.scaled?.isNone && body.value?.isNone
  | _ => false

theorem layers_eq_zero {e : Expr S} (h : e.scaled? = none) : e.layers = 0 := by
  cases e <;> simp_all [scaled?, layers]

theorem spine_eq (e : Expr S) : e.spine = 2 * e.layers + 1 := by
  induction e with
  | scale factor body ihf ihb => simp only [spine, layers, ihf, ihb]; omega
  | _ => rfl

/-! ## A measure for the recursion -/

theorem layers_scale (s b : Expr S) : (scale s b).layers = s.layers + b.layers + 1 := rfl

/-- The scaled nodes of an operand that are still to be looked at. -/
def slack (e : Expr S) : Nat := if e.headNormal then 0 else e.layers

/-- The scaled nodes of both operands that are still to be looked at. A scalar on the left is never
taken apart, and a literal on the right moves to the left first. -/
def pending (a b : Expr S) : Nat :=
  if b.value?.isSome then a.slack else if a.isScalar then b.slack else a.slack + b.slack

/-- How far a product is from being built, among products with the same pending nodes. -/
def urgency (a b : Expr S) : Nat :=
  if b.value?.isSome then 3 else if !a.isScalar then 2 else if b.scaled?.isSome then 1 else 0

/-- A bound on the nesting of products in the product of `a` and `b`. -/
def effort (a b : Expr S) : Nat :=
  4 * ((a.layers + b.layers) * (a.layers + b.layers + 1) + a.pending b) + a.urgency b

theorem slack_le (e : Expr S) : e.slack ≤ e.layers := by
  unfold slack
  split <;> omega

theorem pending_le (a b : Expr S) : a.pending b ≤ a.layers + b.layers := by
  have := a.slack_le
  have := b.slack_le
  unfold pending
  split
  · omega
  · split <;> omega

theorem urgency_le (a b : Expr S) : a.urgency b ≤ 3 := by
  unfold urgency
  repeat' split
  all_goals omega

theorem effort_lt_of_layers {a b a' b' : Expr S}
    (h : a'.layers + b'.layers < a.layers + b.layers) : effort a' b' < effort a b := by
  have h₁ := pending_le a' b'
  have h₂ := urgency_le a' b'
  unfold effort
  generalize a'.layers + b'.layers = n' at *
  generalize a.layers + b.layers = n at *
  have h₃ : (n' + 1) * (n' + 2) ≤ n * (n + 1) := Nat.mul_le_mul (by omega) (by omega)
  nlinarith

theorem effort_lt_of_lex {a b a' b' : Expr S}
    (h : a'.layers + b'.layers ≤ a.layers + b.layers)
    (hp : a'.layers + b'.layers = a.layers + b.layers →
      a'.pending b' < a.pending b ∨ a'.pending b' = a.pending b ∧ a'.urgency b' < a.urgency b) :
    effort a' b' < effort a b := by
  obtain hlt | heq := Nat.lt_or_eq_of_le h
  · exact effort_lt_of_layers hlt
  · have hu := urgency_le a' b'
    unfold effort
    rw [heq]
    obtain hp | ⟨hp, hu⟩ := hp heq <;> omega

theorem headNormal_scale {s r : Expr S} : (scale s r).headNormal = true ↔
    s.isScalar = true ∧ r.scaled? = none ∧ r.value? = none := by
  simp [headNormal, and_assoc]

theorem slack_of_headNormal {e : Expr S} (h : e.headNormal = true) : e.slack = 0 := by
  simp [slack, h]

theorem slack_scale {s r : Expr S} (h : (scale s r).headNormal = false) :
    (scale s r).slack = s.layers + r.layers + 1 := by
  simp [slack, h, layers]

theorem slack_eq_zero {e : Expr S} (h : e.scaled? = none) : e.slack = 0 := by
  have := e.slack_le
  rw [layers_eq_zero h] at this
  omega

theorem scaled?_of_headNormal {e : Expr S} (h : e.headNormal = true) :
    e.scaled?.isSome = true ∧ e.value? = none := by
  cases e <;> simp_all [headNormal, scaled?, value?]

theorem pending_le_right {a b : Expr S} (h : a.slack = 0) : a.pending b ≤ b.slack := by
  unfold pending
  split
  · omega
  · split <;> omega

theorem pending_le_left {a b : Expr S} (h : b.slack = 0) : a.pending b ≤ a.slack := by
  unfold pending
  split
  · omega
  · split <;> omega

theorem pending_scalar {a b : Expr S} (ha : a.isScalar = true) (hb : b.value? = none) :
    a.pending b = b.slack := by
  simp [pending, ha, hb]

theorem pending_nonscalar {a b : Expr S} (ha : a.isScalar = false) (hb : b.value? = none) :
    a.pending b = a.slack + b.slack := by
  simp [pending, ha, hb]

theorem urgency_scalar {a b : Expr S} (ha : a.isScalar = true) (hb : b.value? = none) :
    a.urgency b = if b.scaled?.isSome then 1 else 0 := by
  simp [urgency, ha, hb]

theorem urgency_nonscalar {a b : Expr S} (ha : a.isScalar = false) (hb : b.value? = none) :
    a.urgency b = 2 := by
  simp [urgency, ha, hb]

/-- The factor of a scaled operand is hoisted out of a product whose other operand is not scaled. -/
theorem effort_hoist {s l a b m : Expr S} (hm : m.layers ≤ l.layers + 1)
    (hn : m.layers = l.layers + 1 → m.headNormal = true)
    (hl : a.layers + b.layers = (scale s l).layers) (ha : a.isScalar = false)
    (hv : b.value? = none) (hp : a.pending b = (scale s l).slack) :
    effort s m < effort a b := by
  refine effort_lt_of_lex (by rw [hl, layers_scale]; omega) fun heq => ?_
  have hn' := hn (by rw [hl, layers_scale] at heq; omega)
  obtain ⟨hms, hmv⟩ := scaled?_of_headNormal hn'
  have hlt := pending_le_left (a := s) (slack_of_headNormal hn')
  rw [hp]
  by_cases hsl : (scale s l).headNormal = true
  · obtain ⟨hs, -⟩ := headNormal_scale.1 hsl
    rw [pending_scalar hs hmv, slack_of_headNormal hn', slack_of_headNormal hsl]
    exact .inr ⟨rfl, by simp [urgency_scalar hs hmv, urgency_nonscalar ha hv, hms]⟩
  · rw [slack_scale (by simpa using hsl)]
    have := s.slack_le
    omega

/-- A literal on the right moves to the left. -/
theorem effort_swap {a : Expr S} {y : S} (hv : a.value? = none) :
    effort (.literal y) a < effort a (.literal y) := by
  refine effort_lt_of_lex (Nat.add_comm _ _).le fun _ => .inr ⟨?_, ?_⟩
  · rw [pending_scalar rfl hv]
    rfl
  · have h3 : a.urgency (.literal y) = 3 := if_pos rfl
    rw [urgency_scalar rfl hv, h3]
    split <;> omega

variable [Scalar S]

/-! ## The steps -/

/-- The product of `a` and `b` is neither absorbed nor folded: no operand is the zero element, a
literal stands on the left, and it is not one. -/
structure Proper (a b : Expr S) : Prop where
  left : a.isNull = false
  right : b.isNull = false
  literal : b.value? = none
  one : ∀ x, a.value? = some x → (x == 1) = false

/-- `Product a b c`: multiplying `a` and `b` gives `c`. -/
inductive Product : Expr S → Expr S → Expr S → Prop
  | nullLeft (b : Expr S) : Product .null b .null
  | nullRight (a : Expr S) : Product a .null .null
  | fold (x y : S) : Product (.literal x) (.literal y) (.literal (x * y))
  | oneLeft {x : S} {b : Expr S} (hx : (x == 1) = true) (hb : b.isNull = false)
      (hv : b.value? = none) : Product (.literal x) b b
  | oneRight {a : Expr S} {y : S} (ha : a.isNull = false) (hv : a.value? = none)
      (hy : (y == 1) = true) : Product a (.literal y) a
  | swap {a c : Expr S} {y : S} (ha : a.isNull = false) (hv : a.value? = none)
      (hy : (y == 1) = false) (h : Product (.literal y) a c) : Product a (.literal y) c
  | mergeLeft {a s r t c : Expr S} (hp : Proper a (.scale s r)) (ha : a.isScalar = true)
      (ht : Product a s t) (hc : Product t r c) : Product a (.scale s r) c
  | scaleLeft {a b : Expr S} (hp : Proper a b) (ha : a.isScalar = true) (hb : b.scaled? = none) :
      Product a b (.scale a.asOperand b)
  | mergeRight {s l b t c : Expr S} (hp : Proper (.scale s l) b)
      (ha : (scale s l).isScalar = false) (hb : b.isScalar = true) (ht : Product s b t)
      (hc : Product t l c) : Product (.scale s l) b c
  | scaleRight {a b : Expr S} (hp : Proper a b) (ha : a.isScalar = false) (hb : b.isScalar = true)
      (hs : a.scaled? = none) : Product a b (.scale b a)
  | mergeBoth {s l u r t m c : Expr S} (hp : Proper (.scale s l) (.scale u r))
      (ha : (scale s l).isScalar = false) (hb : (scale u r).isScalar = false)
      (ht : Product s u t) (hm : Product l r m) (hc : Product t m c) :
      Product (.scale s l) (.scale u r) c
  | hoistLeft {s l b m c : Expr S} (hp : Proper (.scale s l) b)
      (ha : (scale s l).isScalar = false) (hb : b.isScalar = false) (hs : b.scaled? = none)
      (hm : Product l b m) (hc : Product s m c) : Product (.scale s l) b c
  | hoistRight {a s r m c : Expr S} (hp : Proper a (.scale s r)) (ha : a.isScalar = false)
      (hb : (scale s r).isScalar = false) (hs : a.scaled? = none) (hm : Product a r m)
      (hc : Product s m c) : Product a (.scale s r) c
  | matMul {a b : Expr S} (hp : Proper a b) (ha : a.isScalar = false) (hb : b.isScalar = false)
      (hl : a.scaled? = none) (hr : b.scaled? = none) : Product a b (.matMul a b)

@[simp] theorem isScalar_asOperand (a : Expr S) : a.asOperand.isScalar = a.isScalar := by
  cases a <;> rfl

/-! ## What a product can be -/

/-- Scalars have a scalar for their product. -/
theorem Product.isScalar {a b c : Expr S} (h : Product a b c) (ha : a.isScalar = true)
    (hb : b.isScalar = true) : c.isScalar = true := by
  induction h with
  | nullLeft b => exact ha
  | nullRight a => exact hb
  | fold => rfl
  | oneLeft => exact hb
  | oneRight => exact ha
  | swap _ _ _ _ ih => exact ih rfl ha
  | mergeLeft _ _ _ _ iht ihc =>
    simp only [Expr.isScalar, Bool.and_eq_true] at hb
    exact ihc (iht ha hb.1) hb.2
  | scaleLeft => simpa [Expr.isScalar, ha] using hb
  | mergeRight _ hs _ _ _ _ _ => rw [hs] at ha; cases ha
  | scaleRight _ hs => rw [hs] at ha; cases ha
  | mergeBoth _ hs _ _ _ _ _ _ _ => rw [hs] at ha; cases ha
  | hoistLeft _ hs _ _ _ _ _ _ => rw [hs] at ha; cases ha
  | hoistRight _ hs _ _ _ _ _ _ => rw [hs] at ha; cases ha
  | matMul _ hs => rw [hs] at ha; cases ha

theorem Product.eq_null_left {b c : Expr S} (h : Product .null b c) : c = .null := by
  cases h with
  | nullLeft | nullRight => rfl
  | oneRight ha | swap ha => cases ha
  | mergeLeft hp | scaleLeft hp | scaleRight hp | hoistRight hp | matMul hp => cases hp.left

theorem Product.eq_null_right {a c : Expr S} (h : Product a .null c) : c = .null := by
  cases h with
  | nullLeft | nullRight => rfl
  | oneLeft _ hb => cases hb
  | scaleLeft hp | mergeRight hp | scaleRight hp | hoistLeft hp | matMul hp => cases hp.right

/-- A measure under which products are multiplied and nothing is gained by folding: what comes of a
product measures no more than the product. `n` is `m` with something added for nodes that a product
does not make. -/
theorem Product.measure_le {m n : Expr S → Nat} (hle : ∀ e, m e ≤ n e)
    (hscale : ∀ a b, m (.scale a b) = m a * m b) (hscale' : ∀ a b, n (.scale a b) = m a * m b)
    (hmatMul : ∀ a b, n (.matMul a b) = m a * m b) (hoperand : ∀ a : Expr S, m a.asOperand = m a)
    (hnull : ∀ a, n .null ≤ m .null * m a)
    (hfold : ∀ x y, n (.literal (x * y)) ≤ m (.literal x) * m (.literal y))
    (hone : ∀ x b, n b ≤ m (.literal x) * m b) {a b c : Expr S} (h : Product a b c) :
    n c ≤ m a * m b := by
  induction h with
  | nullLeft b => exact hnull b
  | nullRight a =>
    rw [Nat.mul_comm]
    exact hnull a
  | fold x y => exact hfold x y
  | @oneLeft x b => exact hone x b
  | @oneRight a y =>
    rw [Nat.mul_comm]
    exact hone y a
  | swap _ _ _ _ ih => rwa [Nat.mul_comm]
  | @mergeLeft a s r t c _ _ _ _ iht ihc =>
    calc n c ≤ m t * m r := ihc
      _ ≤ m a * m s * m r := Nat.mul_le_mul_right _ ((hle t).trans iht)
      _ = m a * (m s * m r) := Nat.mul_assoc _ _ _
      _ = m a * m (.scale s r) := by rw [hscale]
  | @scaleLeft a b => rw [hscale', hoperand]
  | @mergeRight s l b t c _ _ _ _ _ iht ihc =>
    calc n c ≤ m t * m l := ihc
      _ ≤ m s * m b * m l := Nat.mul_le_mul_right _ ((hle t).trans iht)
      _ = m s * m l * m b := Nat.mul_right_comm _ _ _
      _ = m (.scale s l) * m b := by rw [hscale]
  | scaleRight =>
    rw [hscale']
    exact (Nat.mul_comm _ _).le
  | @mergeBoth s l u r t w c _ _ _ _ _ _ iht ihw ihc =>
    calc n c ≤ m t * m w := ihc
      _ ≤ m s * m u * (m l * m r) := Nat.mul_le_mul ((hle t).trans iht) ((hle w).trans ihw)
      _ = m s * m l * (m u * m r) := Nat.mul_mul_mul_comm _ _ _ _
      _ = m (.scale s l) * m (.scale u r) := by rw [hscale, hscale]
  | @hoistLeft s l b w c _ _ _ _ _ _ ihw ihc =>
    calc n c ≤ m s * m w := ihc
      _ ≤ m s * (m l * m b) := Nat.mul_le_mul_left _ ((hle w).trans ihw)
      _ = m s * m l * m b := (Nat.mul_assoc _ _ _).symm
      _ = m (.scale s l) * m b := by rw [hscale]
  | @hoistRight a s r w c _ _ _ _ _ _ ihw ihc =>
    calc n c ≤ m s * m w := ihc
      _ ≤ m s * (m a * m r) := Nat.mul_le_mul_left _ ((hle w).trans ihw)
      _ = m a * (m s * m r) := Nat.mul_left_comm _ _ _
      _ = m a * m (.scale s r) := by rw [hscale]
  | matMul => exact (hmatMul _ _).le

@[simp] theorem layers_asOperand (e : Expr S) : e.asOperand.layers = e.layers := by
  cases e <;> rfl

/-- A product has at most one scaled node more than its operands. -/
theorem Product.layers_le {a b c : Expr S} (h : Product a b c) :
    c.layers ≤ a.layers + b.layers + 1 := by
  induction h with
  | nullLeft | nullRight | fold | matMul => simp [layers]
  | oneLeft => omega
  | oneRight => omega
  | swap => simp only [layers] at *; omega
  | scaleLeft => simp [layers]
  | scaleRight => simp only [layers]; omega
  | mergeLeft | mergeRight | mergeBoth | hoistLeft | hoistRight => simp only [layers] at *; omega

/-- A product that has one scaled node more than its operands is head normal. -/
theorem Product.headNormal {a b c : Expr S} (h : Product a b c)
    (hc : c.layers = a.layers + b.layers + 1) : c.headNormal = true := by
  induction h with
  | nullLeft | nullRight | fold | matMul => simp [layers] at hc
  | oneLeft => simp [layers] at hc
  | oneRight => simp [layers] at hc
  | swap _ _ _ _ ih => exact ih (by simp only [layers] at hc ⊢; omega)
  | scaleLeft hp ha hb => simp [Expr.headNormal, ha, hb, hp.literal]
  | scaleRight hp ha hb hs =>
    simp [Expr.headNormal, hb, hs, value?_eq_none_of_isScalar_eq_false ha]
  | mergeLeft _ _ ht hc' _ ihc =>
    have := ht.layers_le
    exact ihc (by simp only [layers] at hc; have := hc'.layers_le; omega)
  | mergeRight _ _ _ ht hc' _ ihc =>
    have := ht.layers_le
    exact ihc (by simp only [layers] at hc; have := hc'.layers_le; omega)
  | mergeBoth _ _ _ ht hm hc' _ _ ihc =>
    have := ht.layers_le
    have := hm.layers_le
    exact ihc (by simp only [layers] at hc; have := hc'.layers_le; omega)
  | hoistLeft _ _ _ _ hm hc' _ ihc =>
    have := hm.layers_le
    exact ihc (by simp only [layers] at hc; have := hc'.layers_le; omega)
  | hoistRight _ _ _ _ hm hc' _ ihc =>
    have := hm.layers_le
    exact ihc (by simp only [layers] at hc; have := hc'.layers_le; omega)

/-! ## The depth of the recursion -/

/-- A scalar is merged with the factor of a scaled operand, and the outcome with its body. -/
theorem effort_mergeLeft {a s r t : Expr S} (ha : a.isScalar = true) (ht : Product a s t) :
    effort t r < effort a (.scale s r) := by
  have hle := ht.layers_le
  refine effort_lt_of_lex (by simp only [layers_scale]; omega) fun heq => ?_
  have hn := ht.headNormal (by simp only [layers_scale] at heq; omega)
  have hlt := pending_le_right (b := r) (slack_of_headNormal hn)
  rw [pending_scalar ha rfl]
  by_cases hb : (scale s r).headNormal = true
  · obtain ⟨hs, hr, hv⟩ := headNormal_scale.1 hb
    rw [slack_eq_zero hr] at hlt
    rw [slack_of_headNormal hb]
    have hu : t.urgency r < a.urgency (.scale s r) := by
      rw [urgency_scalar (ht.isScalar ha hs) hv, urgency_scalar ha rfl, hr]
      exact Nat.zero_lt_one
    omega
  · rw [slack_scale (by simpa using hb)]
    have := r.slack_le
    omega

theorem effort_mergeRight {s l b t : Expr S} (ha : (scale s l).isScalar = false)
    (hb : b.isScalar = true) (hv : b.value? = none) (ht : Product s b t) :
    effort t l < effort (.scale s l) b := by
  have hle := ht.layers_le
  refine effort_lt_of_lex (by simp only [layers_scale]; omega) fun heq => ?_
  have hn := ht.headNormal (by simp only [layers_scale] at heq; omega)
  have hlt := pending_le_right (b := l) (slack_of_headNormal hn)
  rw [pending_nonscalar ha hv]
  by_cases hsl : (scale s l).headNormal = true
  · obtain ⟨hs, hl, hlv⟩ := headNormal_scale.1 hsl
    rw [slack_eq_zero hl] at hlt
    rw [slack_of_headNormal hsl]
    have hu : t.urgency l < (scale s l).urgency b := by
      rw [urgency_scalar (ht.isScalar hs hb) hlv, urgency_nonscalar ha hv, hl]
      exact Nat.zero_lt_two
    omega
  · rw [slack_scale (by simpa using hsl)]
    have := l.slack_le
    omega

theorem effort_mergeBoth {s l u r t m : Expr S} (ha : (scale s l).isScalar = false)
    (ht : Product s u t) (hm : Product l r m) :
    effort t m < effort (.scale s l) (.scale u r) := by
  have hle := ht.layers_le
  have hle' := hm.layers_le
  refine effort_lt_of_lex (by simp only [layers_scale]; omega) fun heq => ?_
  simp only [layers_scale] at heq
  have hn := ht.headNormal (by omega)
  have hn' := hm.headNormal (by omega)
  obtain ⟨hms, hmv⟩ := scaled?_of_headNormal hn'
  have hlt := pending_le_right (b := m) (slack_of_headNormal hn)
  rw [slack_of_headNormal hn'] at hlt
  rw [pending_nonscalar ha rfl]
  by_cases hsl : (scale s l).headNormal = true ∧ (scale u r).headNormal = true
  · obtain ⟨hs, -⟩ := headNormal_scale.1 hsl.1
    obtain ⟨hu, -⟩ := headNormal_scale.1 hsl.2
    rw [slack_of_headNormal hsl.1, slack_of_headNormal hsl.2]
    have hur : t.urgency m < (scale s l).urgency (.scale u r) := by
      rw [urgency_scalar (ht.isScalar hs hu) hmv, urgency_nonscalar ha rfl, hms]
      decide
    omega
  · obtain h | h := not_and_or.1 hsl
    · rw [slack_scale (by simpa using h)]
      omega
    · rw [slack_scale (s := u) (by simpa using h)]
      omega

theorem effort_hoistLeft {s l b m : Expr S} (ha : (scale s l).isScalar = false)
    (hb : b.isScalar = false) (hs : b.scaled? = none) (hm : Product l b m) :
    effort s m < effort (.scale s l) b := by
  have hle := hm.layers_le
  have h0 := layers_eq_zero hs
  have hv := value?_eq_none_of_isScalar_eq_false hb
  refine effort_hoist (l := l) (by omega) (fun h => hm.headNormal (by omega)) (by omega) ha hv ?_
  rw [pending_nonscalar ha hv, slack_eq_zero hs, Nat.add_zero]

theorem effort_hoistRight {a s r m : Expr S} (ha : a.isScalar = false) (hs : a.scaled? = none)
    (hm : Product a r m) : effort s m < effort a (.scale s r) := by
  have hle := hm.layers_le
  have h0 := layers_eq_zero hs
  refine effort_hoist (l := r) (by omega) (fun h => hm.headNormal (by omega)) (by omega) ha rfl ?_
  rw [pending_nonscalar ha rfl, slack_eq_zero hs, Nat.zero_add]

theorem product_combine {mul : Expr S → Expr S → Expr S} {a b : Expr S} (hp : Proper a b)
    (ih : ∀ a' b', effort a' b' < effort a b → Product a' b' (mul a' b')) :
    Product a b (combine mul a b) := by
  unfold combine
  split
  case isTrue ha =>
    split
    case h_1 s r hb =>
      obtain rfl := scaled?_eq_some.1 hb
      have ht := ih a s (effort_lt_of_layers (by simp only [layers_scale]; omega))
      exact .mergeLeft hp ha ht (ih _ _ (effort_mergeLeft ha ht))
    case h_2 hb => exact .scaleLeft hp ha hb
  case isFalse ha =>
    rw [Bool.not_eq_true] at ha
    split
    case isTrue hb =>
      split
      case h_1 s l hs =>
        obtain rfl := scaled?_eq_some.1 hs
        have ht := ih s b (effort_lt_of_layers (by simp only [layers_scale]; omega))
        exact .mergeRight hp ha hb ht (ih _ _ (effort_mergeRight ha hb hp.literal ht))
      case h_2 hs => exact .scaleRight hp ha hb hs
    case isFalse hb =>
      rw [Bool.not_eq_true] at hb
      split
      case h_1 s l u r hl hr =>
        obtain rfl := scaled?_eq_some.1 hl
        obtain rfl := scaled?_eq_some.1 hr
        have ht := ih s u (effort_lt_of_layers (by simp only [layers_scale]; omega))
        have hm := ih l r (effort_lt_of_layers (by simp only [layers_scale]; omega))
        exact .mergeBoth hp ha hb ht hm (ih _ _ (effort_mergeBoth ha ht hm))
      case h_2 s l hl hr =>
        obtain rfl := scaled?_eq_some.1 hl
        have hm := ih l b (effort_lt_of_layers (by simp only [layers_scale]; omega))
        exact .hoistLeft hp ha hb hr hm (ih _ _ (effort_hoistLeft ha hb hr hm))
      case h_3 s r hl hr =>
        obtain rfl := scaled?_eq_some.1 hr
        have hm := ih a r (effort_lt_of_layers (by simp only [layers_scale]; omega))
        exact .hoistRight hp ha hb hl hm (ih _ _ (effort_hoistRight ha hl hm))
      case h_4 hl hr => exact .matMul hp ha hb hl hr

/-- The recursive calls of a product all take less effort. -/
theorem product_productStep {mul : Expr S → Expr S → Expr S} {a b : Expr S}
    (ih : ∀ a' b', effort a' b' < effort a b → Product a' b' (mul a' b')) :
    Product a b (productStep mul a b) := by
  unfold productStep
  split
  case isTrue h =>
    simp only [Bool.or_eq_true, isNull_iff] at h
    obtain rfl | rfl := h
    · exact .nullLeft b
    · exact .nullRight a
  case isFalse h =>
    simp only [Bool.or_eq_true, not_or, Bool.not_eq_true] at h
    obtain ⟨ha, hb⟩ := h
    split
    case h_1 x y hx hy =>
      obtain rfl := value?_eq_some.1 hx
      obtain rfl := value?_eq_some.1 hy
      exact .fold x y
    case h_2 x hx hv =>
      split
      case isTrue h1 =>
        obtain rfl := value?_eq_some.1 hx
        exact .oneLeft h1 hb hv
      case isFalse h1 =>
        refine product_combine ⟨ha, hb, hv, fun z hz => ?_⟩ ih
        rw [hx] at hz
        cases hz
        simpa using h1
    case h_3 y hv hy =>
      obtain rfl := value?_eq_some.1 hy
      split
      case isTrue h1 => exact .oneRight ha hv h1
      case isFalse h1 => exact .swap ha hv (by simpa using h1) (ih _ _ (effort_swap hv))
    case h_4 hv hv' =>
      refine product_combine ⟨ha, hb, hv', fun z hz => ?_⟩ ih
      rw [hv] at hz
      cases hz

theorem product_productWithin {depth : Nat} {a b : Expr S} (h : effort a b < depth) :
    Product a b (productWithin depth a b) := by
  induction depth generalizing a b with
  | zero => omega
  | succ depth ih => exact product_productStep fun a' b' h' => ih (by omega)

omit [Scalar S] in
theorem effort_lt_productDepth (a b : Expr S) : effort a b < productDepth a b := by
  have hp := pending_le a b
  have hu := urgency_le a b
  unfold effort productDepth
  rw [spine_eq, spine_eq, Nat.pow_eq]
  have hn : 2 * a.layers + 1 + (2 * b.layers + 1) + 1 = 2 * (a.layers + b.layers) + 3 := by omega
  rw [hn]
  generalize a.layers + b.layers = n at *
  have h2 : (n + 3) * (n + 1) ≤ (2 * n + 3) ^ 2 := by nlinarith
  have h1 : 3 ≤ (n + 3) * (n + 1) := by nlinarith
  have h4 : (2 * n + 3) ^ 4 = (2 * n + 3) ^ 2 * (2 * n + 3) ^ 2 := pow_add _ 2 2
  nlinarith

/-- The multiplication takes the steps of a product to their end. -/
theorem product_times (a b : Expr S) : Product a b (a * b) :=
  product_productWithin (effort_lt_productDepth a b)

theorem null_times (b : Expr S) : null * b = null := (product_times null b).eq_null_left

theorem times_null (a : Expr S) : a * null = null := (product_times a null).eq_null_right

end TraceCalculus.Expr
