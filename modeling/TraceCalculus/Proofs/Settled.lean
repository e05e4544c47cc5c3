import TraceCalculus.Proofs.FirstOrder

/-! # What a stage leaves of an expression of first order

On expressions of first order a stage ends only where no rule matches, neither at the top nor below
it (`Expr.Settled`). Each step of a loop keeps the expression as it is, up to `==`, or leads below
it in the sense of `Expr.Falls`, so no loop comes back to an expression that it has left
(`Canonical.Lowering`). And a pass over the operands that keeps the node has kept each operand,
which therefore is what it was settled to.

The first pass may start with any expression; from then on all are neat.
-/

set_option autoImplicit false

namespace TraceCalculus

variable {S : Type}

namespace Expr

variable [Scalar S] {a a' b b' e r : Expr S} {stage : Stage}

/-- No rule of the stage matches anywhere. -/
def Settled (stage : Stage) (e : Expr S) : Prop := ∀ s ∈ e.postOrder, ruleMatches s stage.rules = []

/-- No rule of the stage matches anywhere below the top. -/
def OperandsSettled (stage : Stage) (e : Expr S) : Prop := ∀ a ∈ e.children, a.Settled stage

theorem settled_iff :
    e.Settled stage ↔ ruleMatches e stage.rules = [] ∧ e.OperandsSettled stage :=
  forall_postOrder_iff

variable [NumericScalar S]

theorem Settled.congr (h : a.Settled stage) (hab : a.Congruent b) : b.Settled stage := by
  refine hab.forall_postOrder (fun {x y} hx hxy => ?_) h
  have hm := ruleMatches_congruent hxy stage.rules
  rw [hx] at hm
  exact List.forall₂_nil_left_iff.1 hm

theorem OperandsSettled.congr (h : a.OperandsSettled stage) (hab : a.Congruent b) :
    b.OperandsSettled stage := by
  intro y hy
  obtain ⟨x, hx, hxy⟩ := hab.exists_mem_children hy
  exact (h x hx).congr hxy

/-- What is congruent does not fall. -/
theorem Congruent.not_falls (h : a.Congruent b) : ¬Falls 1 a b := by
  intro hf
  have hdown := hf.descends
  have hup := h.symm.falls.descends
  omega

omit [Scalar S] [NumericScalar S] in
theorem Falls.weaken {i k : Nat} (h : Falls k a b) (hik : i ≤ k) : Falls i a b := by
  obtain ⟨ho, hf, hs, hd⟩ := h
  exact ⟨ho, hf, hs, by omega⟩

/-- An operand stays up to `==` or falls. -/
def Moves (a b : Expr S) : Prop := a.Congruent b ∨ Falls 1 a b

theorem Moves.falls (h : Moves a b) : Falls 0 a b := by
  rcases h with h | h
  · exact h.falls
  · exact h.weaken (Nat.zero_le 1)

theorem Moves.trans (h : Moves a b) (h' : Moves b e) : Moves a e := by
  rcases h with h | h
  · rcases h' with h' | h'
    · exact .inl (h.trans h')
    · exact .inr (h.falls.trans h')
  · exact .inr (h.trans h'.falls)

/-- Both operands stay, or the node over them falls. -/
theorem Moves.congruent_or {op : Expr S → Expr S → Expr S}
    (hop : ∀ {i k : Nat} {a a' b b' : Expr S}, Falls i a a' → Falls k b b' →
      Falls (i + k) (op a b) (op a' b')) (ha : Moves a a') (hb : Moves b b') :
    a.Congruent a' ∧ b.Congruent b' ∨ Falls 1 (op a b) (op a' b') := by
  rcases ha with ha | ha
  · rcases hb with hb | hb
    · exact .inl ⟨ha, hb⟩
    · exact .inr (hop ha.falls hb)
  · exact .inr (hop ha hb.falls)

end Expr

open TraceCalculus.Expr (Neat Falls Moves Settled OperandsSettled)

namespace Canonical

variable [Scalar S] [NumericScalar S] {e e' r x y next : Expr S} {stage : Stage}

/-- What the loops do to an expression: from a neat one they stay or lead below. -/
structure Lowering (e r : Expr S) : Prop where
  neat : r.Neat
  order_le : r.order ≤ e.order
  scalar : e.isScalar = true → r.isScalar = true
  moves : e.Neat → Moves e r

theorem lowering_self (h : e.Neat) : Lowering e e := ⟨h, Nat.le_refl _, id, fun _ => .inl (.refl e)⟩

theorem Lowering.trans (h : Lowering e x) (h' : Lowering x r) : Lowering e r where
  neat := h'.neat
  order_le := h'.order_le.trans h.order_le
  scalar he := h'.scalar (h.scalar he)
  moves he := (h.moves he).trans (h'.moves h.neat)

theorem Lowering.congr (h : Lowering e r) (he : e.Congruent e') : Lowering e' r where
  neat := h.neat
  order_le := h.order_le.trans he.symm.falls.order_le
  scalar hk := h.scalar (he.isScalar_eq.trans hk)
  moves hn := Moves.trans (.inl he.symm) (h.moves (hn.congr he.symm))

/-- A node over operands that stay stays. -/
theorem congruent_of_rebuilt (he : e.Neat) (h : Rebuilt Expr.Congruent e r) : e.Congruent r := by
  rw [← he.tidied]
  cases h with
  | var | scalarVar | literal | null => exact .refl _
  | differential ha =>
    rw [Expr.asOperand_numeric]
    exact .differential ha
  | add ha hb => exact ha.plus hb
  | sub ha hb => exact ha.minus hb
  | scale ha hb | matMul ha hb => exact ha.times hb
  | trace ha => exact ha.traced
  | transpose ha => exact ha.transposed

/-- A neat node that is built again falls, unless all its operands stay. -/
theorem falls_or_rebuilt {R : Expr S → Expr S → Prop} (hR : ∀ {a b}, R a b → Lowering a b)
    (he : e.Neat) (h : Rebuilt R e r) :
    Falls 1 e r ∨ Rebuilt (fun a b => R a b ∧ a.Congruent b) e r := by
  cases h with
  | var name => exact .inr (.var name)
  | scalarVar name => exact .inr (.scalarVar name)
  | literal x => exact .inr (.literal x)
  | null => exact .inr .null
  | differential ha =>
    rcases (hR ha).moves he with hc | hf
    · exact .inr (.differential ⟨ha, hc⟩)
    · rw [Expr.asOperand_numeric]
      exact .inl hf.differential
  | add ha hb =>
    rcases ((hR ha).moves he.1).congruent_or Falls.add ((hR hb).moves he.2.1) with ⟨hc, hc'⟩ | hf
    · exact .inr (.add ⟨ha, hc⟩ ⟨hb, hc'⟩)
    · exact .inl (hf.trans ((Expr.plus_add _ _).falls (hR ha).neat))
  | sub ha hb =>
    rcases ((hR ha).moves he.1).congruent_or Falls.sub ((hR hb).moves he.2.1) with ⟨hc, hc'⟩ | hf
    · exact .inr (.sub ⟨ha, hc⟩ ⟨hb, hc'⟩)
    · exact .inl (hf.trans ((Expr.minus_sub _ _).falls (hR hb).neat))
  | scale ha hb =>
    rcases ((hR ha).moves he.1).congruent_or Falls.scale ((hR hb).moves he.2.1) with ⟨hc, hc'⟩ | hf
    · exact .inr (.scale ⟨ha, hc⟩ ⟨hb, hc'⟩)
    · have hk := (hR ha).scalar he.2.2.scalar
      exact .inl (hf.trans
        ((Expr.product_times _ _).falls_scale (.inl hk) (hR ha).neat (hR hb).neat))
  | matMul ha hb =>
    rcases ((hR ha).moves he.1).congruent_or Falls.matMul ((hR hb).moves he.2.1) with
      ⟨hc, hc'⟩ | hf
    · exact .inr (.matMul ⟨ha, hc⟩ ⟨hb, hc'⟩)
    · exact .inl (hf.trans ((Expr.product_times _ _).falls (hR ha).neat (hR hb).neat))
  | trace ha =>
    rcases (hR ha).moves he.1 with hc | hf
    · exact .inr (.trace ⟨ha, hc⟩)
    · exact .inl (hf.trace.trans (Expr.tracing_traced _).falls)
  | transpose ha =>
    rcases (hR ha).moves he.1 with hc | hf
    · exact .inr (.transpose ⟨ha, hc⟩)
    · exact .inl (hf.transpose.trans (Expr.transposition_transposed _).falls)

theorem lowering_of_rebuilt (h : Rebuilt Lowering e r) : Lowering e r where
  neat := neat_of_rebuilt (h.mono fun _ _ ha => ha.neat)
  order_le := by
    cases h with
    | var | scalarVar | literal | null => exact Nat.le_refl _
    | differential ha =>
      rw [Expr.asOperand_numeric]
      exact max_le_max_left 1 ha.order_le
    | add ha hb =>
      exact ((Expr.plus_add _ _).falls ha.neat).order_le.trans (max_le_max ha.order_le hb.order_le)
    | sub ha hb =>
      exact ((Expr.minus_sub _ _).falls hb.neat).order_le.trans (max_le_max ha.order_le hb.order_le)
    | scale ha hb | matMul ha hb =>
      exact ((Expr.product_times _ _).falls ha.neat hb.neat).order_le.trans
        (Nat.add_le_add ha.order_le hb.order_le)
    | trace ha => exact (Expr.tracing_traced _).falls.order_le.trans ha.order_le
    | transpose ha => exact (Expr.transposition_transposed _).falls.order_le.trans ha.order_le
  scalar he := by
    cases h with
    | literal | scalarVar => rfl
    | scale ha hb =>
      simp only [Expr.isScalar, Bool.and_eq_true] at he
      exact Expr.isScalar_times (ha.scalar he.1) (hb.scalar he.2)
    | _ => cases he
  moves he := by
    rcases falls_or_rebuilt id he h with hf | hb
    · exact .inr hf
    · exact .inl (congruent_of_rebuilt he (hb.mono fun _ _ h => h.2))

omit [NumericScalar S] in
/-- Each operand of a node that is built again is related to something. -/
theorem Rebuilt.exists_of_mem {R : Expr S → Expr S → Prop} (h : Rebuilt R e r) {a : Expr S}
    (ha : a ∈ e.children) : ∃ b, R a b := by
  cases h <;> simp only [Expr.children, List.mem_cons, List.not_mem_nil, or_false] at ha
  case differential h | trace h | transpose h => exact ⟨_, ha ▸ h⟩
  case add h h' | sub h h' | scale h h' | matMul h h' =>
    rcases ha with rfl | rfl
    · exact ⟨_, h⟩
    · exact ⟨_, h'⟩

/-- What a stage makes of an expression of first order. -/
structure Settles (stage : Stage) (e r : Expr S) : Prop extends Lowering e r where
  settled : r.Settled stage

theorem Settles.congr (h : Settles stage e r) (he : e.Congruent e') : Settles stage e' r :=
  ⟨h.toLowering.congr he, h.settled⟩

/-- Operands that stay are settled. -/
theorem operandsSettled_of_rebuilt
    (h : Rebuilt (fun a b => Settles stage a b ∧ a.Congruent b) e r) : e.OperandsSettled stage := by
  intro a ha
  obtain ⟨b, hab, hc⟩ := h.exists_of_mem ha
  exact hab.settled.congr hc.symm

/-- Where a loop comes back to an expression it has not led below the last one. -/
theorem neat_and_not_falls_of_isSeen {seen : List (Expr S)} (h : Ahead Lowering seen x)
    (hn : next.Neat) (hs : isSeen seen next = true) : x.Neat ∧ ¬Falls 1 x next := by
  obtain ⟨y, hyn, hyx⟩ := h.exists_of_isSeen hs
  have hc := Expr.Congruent.of_beq hyn
  rcases hyx with rfl | hyx
  · exact ⟨hn.congr hc.symm, hc.not_falls⟩
  · exact ⟨hyx.neat, fun hf => hc.not_falls ((hyx.moves (hn.congr hc.symm)).falls.trans hf)⟩

variable {inv : Journal S → Prop} {options : Options}
  {visit : List Nat → Expr S → Running S (Expr S)} {path : List Nat} {fuel : Nat}

omit [Scalar S] [NumericScalar S] in
theorem order_le_of_mem_children {a : Expr S} (ha : a ∈ e.children) : a.order ≤ e.order := by
  cases e <;> simp only [Expr.children, List.mem_cons, List.not_mem_nil, or_false] at ha
  case differential | trace | transpose =>
    subst ha
    simp
  case add | sub | scale | matMul => rcases ha with rfl | rfl <;> simp

/-- The loop over the operands ends only when they are settled. -/
theorem yields_operandsSettled (hu : Unlimited options inv)
    (hv : ∀ path e, e.order ≤ 1 → Yields inv (visit path e) fun r _ => Settles stage e r)
    (he : e.order ≤ 1) :
    Yields inv (settleOperands visit path fuel [e] e) fun r _ =>
      Lowering e r ∧ r.OperandsSettled stage := by
  refine hu.settleOperands Lowering.trans fun seen x hx hahead => ?_
  have hox : x.order ≤ 1 := by
    rcases hx with rfl | hex
    · exact he
    · exact hex.order_le.trans he
  refine (Yields.rebuild hv x fun a ha => (order_le_of_mem_children ha).trans hox).mono
    fun next _ _ hb => ?_
  have hnext : Lowering x next := lowering_of_rebuilt (hb.mono fun _ _ h => h.toLowering)
  refine ⟨hnext, fun hexit => ?_⟩
  -- the pass has not led below `x`, which is neat, too, and so has stayed
  obtain ⟨hneat, hstays⟩ : x.Neat ∧ ¬Falls 1 x next := by
    rcases hexit with heq | hseen
    · have hc := (Expr.Congruent.of_beq heq).symm
      exact ⟨hnext.neat.congr hc.symm, hc.not_falls⟩
    · exact neat_and_not_falls_of_isSeen hahead hnext.neat hseen
  rcases falls_or_rebuilt Settles.toLowering hneat hb with hf | hb
  · exact absurd hf hstays
  · exact (operandsSettled_of_rebuilt hb).congr
      (congruent_of_rebuilt hneat (hb.mono fun _ _ h => h.2))

theorem lowering_output {m : RuleMatch S} (hx : x.Neat) (ho : x.order ≤ 1)
    (hm : m ∈ ruleMatches x stage.rules) : Lowering x m.output := by
  have hout := Stage.falls_output hx ho hm
  refine ⟨neat_output hx hm, hout.order_le, fun hk => ?_, fun _ => .inr hout⟩
  rw [Stage.isScalar_of_mem_ruleMatches hm] at hk
  cases hk

/-- A node is left where no rule matches it. -/
theorem yields_settles_node (hu : Unlimited options inv)
    (hv : ∀ path e, e.order ≤ 1 → Yields inv (visit path e) fun r _ => Settles stage e r)
    (he : e.order ≤ 1) :
    Yields inv (settleNode options stage stage.rules visit path fuel e) fun r _ =>
      Settles stage e r := by
  refine (hu.settleNode (R := Lowering) (W := fun x => x.order ≤ 1) (Q := OperandsSettled stage)
    (P := Settled stage) Lowering.trans (fun x hx => yields_operandsSettled hu hv hx)
    (fun x m hex _ hm => ?_) (fun seen x hex hops hahead hnone => ?_)
    (fun seen x m next hex _ hahead hm hnext _ hseen => ?_) he).mono fun r _ _ h => ⟨h.1, h.2⟩
  · have hout := lowering_output hex.neat (hex.order_le.trans he) hm
    exact ⟨hout.order_le.trans (hex.order_le.trans he), hout⟩
  · refine Expr.settled_iff.2 ⟨List.eq_nil_iff_forall_not_mem.2 fun m hm => ?_, hops⟩
    have hout := Stage.falls_output hex.neat (hex.order_le.trans he) hm
    rcases hnone m hm with heq | hseen
    · exact (Expr.Congruent.of_beq heq).symm.not_falls hout
    · exact (neat_and_not_falls_of_isSeen hahead (neat_output hex.neat hm) hseen).2 hout
  · -- the rule has led below `x`, so the loop has not been there
    have hout := Stage.falls_output hex.neat (hex.order_le.trans he) hm
    have hf : Falls 1 x next := hout.trans (hnext.moves (neat_output hex.neat hm)).falls
    exact absurd hf (neat_and_not_falls_of_isSeen hahead hnext.neat hseen).2

end Canonical

end TraceCalculus
