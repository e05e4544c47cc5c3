import TraceCalculus.Proofs.Bulk
import TraceCalculus.Proofs.CanonicalShape
import TraceCalculus.Proofs.Idempotence

/-! # The form in which rules leave products and transposes

Where no rule about products and transposes is left (`Expr.Resolved`), a transpose is of a variable
or a differential, products associate to the left, and no operand of a product is a sum with a
differential. The last stage leaves all nodes of an expression so (`Expr.RuleNormal`), whatever it
starts with.

That is clear where the stage ends because no rule can be applied. But a loop also ends where it
comes back to an expression it has been at, with an operand that may not have been settled yet. So
the proof follows bulk and rank (`Sinking`): at a node that is not resolved some rule leads to a
lower rank, from where nothing leads back. A run that converges within its budget does what it would
do without one.
-/

set_option autoImplicit false

namespace TraceCalculus

variable {S : Type}

namespace Expr

/-- A variable or a differential. -/
def isAtom : Expr S → Bool
  | .var _ | .differential _ => true
  | _ => false

/-- A sum or difference that has a differential, over which products are distributed. -/
def isDistributed (e : Expr S) : Bool := e.isSum && e.hasDifferential

/-- No rule about transposes or products is left for the node. -/
def Resolved : Expr S → Prop
  | .transpose a => a.isAtom = true
  | .matMul a b => a.isDistributed = false ∧ b.isDistributed = false ∧ b.kind ≠ .matMul
  | _ => True

/-- Every node is resolved. -/
def RuleNormal (e : Expr S) : Prop := ∀ s ∈ e.postOrder, s.Resolved

/-- Every node below the top is resolved. -/
def OperandsNormal (e : Expr S) : Prop := ∀ a ∈ e.children, a.RuleNormal

variable {a b c e k : Expr S}

theorem ruleNormal_iff : e.RuleNormal ↔ e.Resolved ∧ e.OperandsNormal := forall_postOrder_iff

theorem RuleNormal.operands (h : e.RuleNormal) : e.OperandsNormal := (ruleNormal_iff.1 h).2

theorem operandsNormal_unary (ha : a.RuleNormal) (hc : c.children = [a]) : c.OperandsNormal := by
  intro x hx
  rw [hc, List.mem_singleton] at hx
  exact hx ▸ ha

theorem operandsNormal_binary (ha : a.RuleNormal) (hb : b.RuleNormal) (hc : c.children = [a, b]) :
    c.OperandsNormal := by
  intro x hx
  rw [hc, List.mem_pair] at hx
  rcases hx with rfl | rfl
  · exact ha
  · exact hb

theorem ruleNormal_scale (ha : a.RuleNormal) (hb : b.RuleNormal) : (scale a b).RuleNormal :=
  ruleNormal_iff.2 ⟨trivial, operandsNormal_binary ha hb rfl⟩

theorem ruleNormal_of_isScalar (h : k.isScalar = true) : k.RuleNormal := by
  induction k with
  | literal | scalarVar => exact ruleNormal_iff.2 ⟨trivial, nofun⟩
  | scale a b iha ihb =>
    simp only [isScalar, Bool.and_eq_true] at h
    exact ruleNormal_scale (iha h.1) (ihb h.2)
  | _ => cases h

variable [Scalar S]

theorem Congruent.isSum_eq [CongruentScalar S] (h : a.Congruent b) : a.isSum = b.isSum := by
  cases h <;> rfl

theorem Resolved.congr [CongruentScalar S] (h : a.Resolved) (hab : a.Congruent b) : b.Resolved := by
  have hdist : ∀ {a b : Expr S}, a.Congruent b → a.isDistributed = b.isDistributed := by
    intro a b h
    rw [isDistributed, isDistributed, h.isSum_eq, hasDifferential, h.contains_eq]
  cases hab with
  | transpose ha =>
    have hatom : ∀ {a b : Expr S}, a.Congruent b → a.isAtom = b.isAtom := by
      intro a b h
      cases h <;> rfl
    exact (hatom ha).symm.trans h
  | matMul ha hb =>
    obtain ⟨hl, hr, hk⟩ := h
    exact ⟨hdist ha ▸ hl, hdist hb ▸ hr, hb.kind_eq ▸ hk⟩
  | _ => trivial

theorem RuleNormal.congr [CongruentScalar S] (h : a.RuleNormal) (hab : a.Congruent b) :
    b.RuleNormal :=
  hab.forall_postOrder Resolved.congr h

omit [Scalar S] in
theorem isAtom_of_rank_eq_zero (h : a.rank = 0) (ht : a.isTurnable = true) : a.isAtom = true := by
  cases a with
  | var | differential => rfl
  | literal | scalarVar | null => cases ht
  | add | sub | trace => cases h
  | scale | matMul | transpose =>
    simp only [rank] at h
    split at h <;> cases h

theorem Neat.resolved_of_rank_le (he : e.Neat) (h : e.rank ≤ 2) : e.Resolved := by
  cases e with
  | transpose a =>
    refine isAtom_of_rank_eq_zero ?_ he.2
    simp only [rank] at h
    split at h <;> omega
  | matMul a b =>
    simp only [rank] at h
    split at h <;> omega
  | _ => trivial

/-- An operand on the right of a product has a low rank once it is settled. -/
theorem Multiplying.rank_le (h : a.Multiplying b) (hb : b.Neat) (hn : b.RuleNormal)
    (hk : b.kind ≠ .matMul) : b.rank ≤ 2 := by
  cases b with
  | scale => cases h.unscaledRight
  | matMul => exact absurd rfl hk
  | transpose a =>
    have hr := (ruleNormal_iff.1 hn).1
    cases a <;> first | exact Nat.le_refl 2 | cases hr
  | _ => simp [rank]

/-! ## Nodes over settled operands -/

section Built

variable [NumericScalar S]

omit [Scalar S] [NumericScalar S] in
theorem Transposition.operandsNormal (h : Transposition a c) (ha : a.RuleNormal) :
    c.OperandsNormal := by
  cases h with
  | null => exact nofun
  | turnBack => exact (ha.operands _ (.head _)).operands
  | trace | scalar => exact ha.operands
  | transpose => exact operandsNormal_unary ha rfl

omit [Scalar S] [NumericScalar S] in
theorem Tracing.operandsNormal (h : Tracing a c) (ha : a.RuleNormal) : c.OperandsNormal := by
  cases h with
  | null => exact nofun
  | scalar => exact ha.operands
  | trace => exact operandsNormal_unary ha rfl

/-- A scalar that is multiplied with leaves no rule to be applied. -/
theorem Product.ruleNormal_of_scalar (h : Product k b c) (hk : k.isScalar = true) (hn : b.Neat)
    (hb : b.RuleNormal) : c.RuleNormal := by
  induction h with
  | nullLeft => cases hk
  | nullRight => exact hb
  | fold => exact ruleNormal_of_isScalar rfl
  | oneLeft => exact hb
  | oneRight => exact ruleNormal_of_isScalar hk
  | swap _ _ _ h =>
    exact ruleNormal_of_isScalar (h.isScalar rfl hk)
  | mergeLeft _ _ ht _ _ ihc =>
    exact ihc (ht.isScalar hk hn.2.2.scalar) hn.2.1 (hb.operands _ (.tail _ (.head _)))
  | scaleLeft =>
    rw [asOperand_numeric]
    exact ruleNormal_scale (ruleNormal_of_isScalar hk) hb
  | mergeRight _ ha | scaleRight _ ha | mergeBoth _ ha | hoistLeft _ ha | hoistRight _ ha
  | matMul _ ha =>
    rw [ha] at hk
    cases hk

/-- The operands of a product are settled where those it is made of are, or a factor has come to the
front of a product that is not. -/
theorem Product.operandsNormal_or (h : Product a b c) (hna : a.Neat) (hnb : b.Neat)
    (ha : a.RuleNormal) (hb : b.RuleNormal) : c.OperandsNormal ∨
      a.isScalar = false ∧ (c.bulk < a.bulk * b.bulk ∨ c.rank ≤ 1) := by
  cases hka : a.isScalar with
  | true => exact .inl (h.ruleNormal_of_scalar hka hnb hb).operands
  | false =>
    cases hza : a.isNull with
    | true =>
      rw [isNull_iff] at hza
      subst hza
      obtain rfl := h.eq_null_left
      exact .inl nofun
    | false =>
      cases hzb : b.isNull with
      | true =>
        rw [isNull_iff] at hzb
        subst hzb
        obtain rfl := h.eq_null_right
        exact .inl nofun
      | false =>
        have hpa := bulk_pos_of_hasNull (hna.hasNull_eq.trans hza)
        have hpb := bulk_pos_of_hasNull (hnb.hasNull_eq.trans hzb)
        rcases h.bulk_lt_or hna hnb hpa hpb with h | h | ⟨-, -, rfl⟩
        · exact .inr ⟨rfl, .inl h⟩
        · exact .inr ⟨rfl, .inr h⟩
        · exact .inl (operandsNormal_binary ha hb rfl)

theorem Plus.operandsNormal (h : Plus a b c) (hna : a.Neat) (ha : a.RuleNormal)
    (hb : b.RuleNormal) : c.OperandsNormal := by
  cases h with
  | nullLeft => exact hb.operands
  | nullRight => exact ha.operands
  | fold => exact nofun
  | double _ _ h => exact (h.ruleNormal_of_scalar rfl hna ha).operands
  | add =>
    rw [asOperand_numeric, asOperand_numeric]
    exact operandsNormal_binary ha hb rfl

theorem Minus.operandsNormal (h : Minus a b c) (hnb : b.Neat) (ha : a.RuleNormal)
    (hb : b.RuleNormal) : c.OperandsNormal := by
  cases h with
  | nullRight => exact ha.operands
  | nullLeft _ h => exact (h.ruleNormal_of_scalar rfl hnb hb).operands
  | cancel | fold => exact nofun
  | sub =>
    rw [asOperand_numeric, asOperand_numeric]
    exact operandsNormal_binary ha hb rfl

end Built

end Expr

open TraceCalculus.Expr (Neat Sinks RuleNormal OperandsNormal)

variable [Scalar S] [NumericScalar S]

namespace Stage

variable {e : Expr S}

omit [NumericScalar S] in
/-- At a node that is not resolved some rule of the last stage can be applied. -/
theorem exists_mem_of_not_resolved (he : e.Neat) (h : ¬e.Resolved) :
    ∃ m, m ∈ ruleMatches e (rules .collect) := by
  have key : ∀ (index : Nat) {rule : Rule S} (σ : Assignment S),
      (rules .collect)[index]? = some rule → e.matchAgainst rule.pattern = .ok σ →
        ∃ m, m ∈ ruleMatches e (rules .collect) := by
    intro index rule σ hr hm
    obtain ⟨m, hm, -⟩ := exists_ruleMatch index σ hr hm rfl
    exact ⟨m, hm⟩
  cases e with
  | transpose a =>
    cases a with
    | var | differential => exact absurd rfl h
    | scalarVar | literal | null | trace | transpose => cases he.2
    | scale k b => 
      refine key 13 [("A", b), ("s", k)] rfl ?_
      simp only [Expr.matchAgainst, Expr.matchFrom, he.1.2.2.scalar]
      rfl
    | matMul a b => exact key 16 [("B", b), ("A", a)] rfl rfl
    | add a b => exact key 17 [("B", b), ("A", a)] rfl rfl
    | sub a b => exact key 18 [("B", b), ("A", a)] rfl rfl
  | matMul a b =>
    simp only [Expr.Resolved, not_and_or, Bool.not_eq_false, not_not, Expr.isDistributed,
      Bool.and_eq_true] at h
    rcases h with ⟨hs, hd⟩ | ⟨hs, hd⟩ | hk
    · cases a with
      | add a₁ a₂ =>
        refine key 5 [("C", b), ("B", a₂), ("A", a₁)] rfl ?_
        simp only [Expr.matchAgainst, Expr.matchFrom, hd]
        rfl
      | sub a₁ a₂ =>
        refine key 7 [("C", b), ("B", a₂), ("A", a₁)] rfl ?_
        simp only [Expr.matchAgainst, Expr.matchFrom, hd]
        rfl
      | _ => cases hs
    · cases b with
      | add b₁ b₂ =>
        refine key 6 [("C", b₂), ("B", b₁), ("A", a)] rfl ?_
        simp only [Expr.matchAgainst, Expr.matchFrom, hd]
        rfl
      | sub b₁ b₂ =>
        refine key 8 [("C", b₂), ("B", b₁), ("A", a)] rfl ?_
        simp only [Expr.matchAgainst, Expr.matchFrom, hd]
        rfl
      | _ => cases hs
    · cases b with
      | matMul b₁ b₂ => exact key 15 [("C", b₂), ("B", b₁), ("A", a)] rfl rfl
      | _ => cases hk
  | _ => exact absurd trivial h

end Stage

namespace Canonical

/-- What settling does to an expression, resolved or not. -/
structure Sinking (e r : Expr S) : Prop where
  neat : r.Neat
  bulk_le : r.bulk ≤ e.bulk
  sinks : e.Neat → Sinks e r
  scalar : e.isScalar = true → r.isScalar = true

/-- What the last stage makes of an expression. -/
structure Normalized (e r : Expr S) : Prop extends Sinking e r where
  normal : r.RuleNormal

variable {e e' r x y next : Expr S}

omit [NumericScalar S] in
theorem Sinking.trans (h : Sinking e x) (h' : Sinking x r) : Sinking e r where
  neat := h'.neat
  bulk_le := h'.bulk_le.trans h.bulk_le
  sinks he := (h.sinks he).trans (h'.sinks h.neat)
  scalar he := h'.scalar (h.scalar he)

omit [NumericScalar S] in
theorem sinking_self (h : e.Neat) : Sinking e e :=
  ⟨h, Nat.le_refl _, fun _ => Expr.sinks_self e, id⟩

theorem Sinking.congr (h : Sinking e r) (he : e.Congruent e') : Sinking e' r where
  neat := h.neat
  bulk_le := he.bulk_eq ▸ h.bulk_le
  sinks hn := by
    have hs := h.sinks (hn.congr he.symm)
    unfold Sinks at *
    rwa [← he.bulk_eq, ← he.rank_eq]
  scalar hk := h.scalar (he.isScalar_eq.trans hk)

theorem sinking_of_rebuilt (h : Rebuilt Sinking e r) : Sinking e r := by
  have hpos : ∀ {a : Expr S}, a.Neat → a.isNull = false → 0 < a.bulk :=
    fun ha hn => Expr.bulk_pos_of_hasNull (ha.hasNull_eq.trans hn)
  have hmatrix : ∀ {p : Prop}, false = true → p := fun h => absurd h Bool.false_ne_true
  cases h with
  | var | scalarVar | literal | null => exact sinking_self trivial
  | differential ha =>
    rw [Expr.asOperand_numeric]
    exact ⟨ha.neat, Nat.le_refl 1, fun _ => .inr ⟨rfl, Nat.le_refl 0⟩, hmatrix⟩
  | @add a a' b b' ha hb =>
    refine ⟨ha.neat.plus hb.neat, ?_, fun he => ?_, hmatrix⟩
    · exact (Expr.plus_add a' b').bulk_le.trans (Nat.add_le_add ha.bulk_le hb.bulk_le)
    · exact (ha.sinks he.1).plus (hb.sinks he.2.1) (hpos he.1 he.2.2.left)
        (hpos he.2.1 he.2.2.right) ha.neat
  | @sub a a' b b' ha hb =>
    refine ⟨ha.neat.minus hb.neat, ?_, fun he => ?_, hmatrix⟩
    · exact (Expr.minus_sub a' b').bulk_le.trans
        (Nat.add_le_add ha.bulk_le (Nat.mul_le_mul_left 2 hb.bulk_le))
    · exact (ha.sinks he.1).minus (hb.sinks he.2.1) (hpos he.1 he.2.2.left)
        (hpos he.2.1 he.2.2.right)
  | @scale a a' b b' ha hb =>
    refine ⟨ha.neat.times hb.neat, ?_, fun he => ?_, fun hk => ?_⟩
    · exact (Expr.product_times a' b').bulk_le.trans (Nat.mul_le_mul ha.bulk_le hb.bulk_le)
    · exact (ha.sinks he.1).scaled (hb.sinks he.2.1) (hpos he.1 he.2.2.left)
        (hpos he.2.1 he.2.2.right) ha.neat hb.neat (ha.scalar he.2.2.scalar)
    · simp only [Expr.isScalar, Bool.and_eq_true] at hk
      exact Expr.isScalar_times (ha.scalar hk.1) (hb.scalar hk.2)
  | @matMul a a' b b' ha hb =>
    refine ⟨ha.neat.times hb.neat, ?_, fun he => ?_, hmatrix⟩
    · exact (Expr.product_times a' b').bulk_le.trans (Nat.mul_le_mul ha.bulk_le hb.bulk_le)
    · exact (ha.sinks he.1).times (hb.sinks he.2.1) (hpos he.1 he.2.2.left)
        (hpos he.2.1 he.2.2.right) ha.neat hb.neat
  | @trace a a' ha =>
    exact ⟨ha.neat.traced, (Expr.tracing_traced a').bulk_eq.trans_le ha.bulk_le,
      fun he => (ha.sinks he.1).traced, hmatrix⟩
  | @transpose a a' ha =>
    exact ⟨ha.neat.transposed, (Expr.transposition_transposed a').bulk_eq.trans_le ha.bulk_le,
      fun he => (ha.sinks he.1).transposed, hmatrix⟩

/-- The operands of a node that is built again are settled, or the node has sunk to where no product
is. -/
theorem operandsNormal_of_rebuilt (h : Rebuilt Normalized e r) : r.OperandsNormal ∨
    3 ≤ e.rank ∧ (r.bulk < e.bulk ∨ r.rank ≤ 1) := by
  cases h with
  | var | scalarVar | literal | null => exact .inl nofun
  | differential ha =>
    rw [Expr.asOperand_numeric]
    exact .inl (Expr.operandsNormal_unary ha.normal rfl)
  | add ha hb => exact .inl ((Expr.plus_add _ _).operandsNormal ha.neat ha.normal hb.normal)
  | sub ha hb => exact .inl ((Expr.minus_sub _ _).operandsNormal hb.neat ha.normal hb.normal)
  | trace ha => exact .inl ((Expr.tracing_traced _).operandsNormal ha.normal)
  | transpose ha => exact .inl ((Expr.transposition_transposed _).operandsNormal ha.normal)
  | @scale a a' b b' ha hb =>
    refine ((Expr.product_times a' b').operandsNormal_or ha.neat hb.neat ha.normal
      hb.normal).imp_right fun ⟨hk, h⟩ => ⟨?_, h.imp_left fun h => ?_⟩
    · have hka : a.isScalar = false := by
        rw [← Bool.not_eq_true]
        intro hka
        rw [ha.scalar hka] at hk
        cases hk
      simp [Expr.rank, hka]
    · exact Nat.lt_of_lt_of_le h (Nat.mul_le_mul ha.bulk_le hb.bulk_le)
  | @matMul a a' b b' ha hb =>
    refine ((Expr.product_times a' b').operandsNormal_or ha.neat hb.neat ha.normal
      hb.normal).imp_right fun ⟨hk, h⟩ => ⟨?_, h.imp_left fun h => ?_⟩
    · simp only [Expr.rank]
      split <;> omega
    · exact Nat.lt_of_lt_of_le h (Nat.mul_le_mul ha.bulk_le hb.bulk_le)

omit [NumericScalar S] in
/-- Below a product a product on the right has a settled operand on its right. -/
theorem rank_le_of_operandsNormal (he : e.Neat) (h : e.OperandsNormal) (a b c : Expr S)
    (heq : e = .matMul a (.matMul b c)) : c.rank ≤ 2 := by
  subst heq
  have hn : (Expr.matMul b c).RuleNormal := h _ (.tail _ (.head _))
  exact he.2.1.2.2.rank_le he.2.1.2.1 (hn.operands _ (.tail _ (.head _)))
    (Expr.ruleNormal_iff.1 hn).1.2.2

/-- A rule that is about a product or a transpose leads to a lower rank, and none to a higher one. -/
theorem sinking_output {stage : Stage} {m : RuleMatch S} (hx : x.Neat) (ho : x.OperandsNormal)
    (hm : m ∈ ruleMatches x stage.rules) :
    Sinking x m.output ∧ (3 ≤ x.rank → x.bulk ≤ m.output.bulk → m.output.rank < x.rank) := by
  obtain ⟨hout, hlt⟩ := Stage.sinks_output hx (rank_le_of_operandsNormal hx ho) hm
  refine ⟨⟨neat_output hx hm, hout.bulk_le, fun _ => hout, fun hk => ?_⟩, hlt⟩
  rw [Stage.isScalar_of_mem_ruleMatches hm] at hk
  cases hk

/-! ## The loops of the last stage -/

/-- From an expression that compares equal to one seen before the loop has sunk. -/
theorem sinks_of_isSeen {seen : List (Expr S)} (h : Ahead Sinking seen x) (hn : next.Neat)
    (hs : isSeen seen next = true) : Sinks next x := by
  obtain ⟨y, hyn, hyx⟩ := h.exists_of_isSeen hs
  have hc := Expr.Congruent.of_beq hyn
  have hsinks : Sinks y x := by
    rcases hyx with rfl | hyx
    · exact Expr.sinks_self y
    · exact hyx.sinks (hn.congr hc.symm)
  exact hsinks.congr_left hc

variable {inv : Journal S → Prop} {options : Options}
  {visit : List Nat → Expr S → Running S (Expr S)} {path : List Nat} {fuel : Nat}

/-- The loop over the operands does not end before they are settled. -/
theorem yields_operandsNormal (hu : Unlimited options inv)
    (hv : ∀ path e, Yields inv (visit path e) fun r _ => Normalized e r) (e : Expr S) :
    Yields inv (settleOperands visit path fuel [e] e) fun r _ =>
      Sinking e r ∧ r.OperandsNormal := by
  refine hu.settleOperands Sinking.trans fun seen x _ hahead => ?_
  refine (Yields.rebuild (W := fun _ => True) (fun path e _ => hv path e) x
    fun _ _ => trivial).mono fun next _ _ hb => ?_
  have hnext : Sinking x next := sinking_of_rebuilt (hb.mono fun _ _ h => h.toSinking)
  refine ⟨hnext, fun hexit => ?_⟩
  -- an expression the loop has been at has no lower rank than `x`
  have hback : Sinks next x := by
    rcases hexit with heq | hseen
    · exact (Expr.sinks_self x).congr_left (Expr.Congruent.of_beq heq).symm
    · exact sinks_of_isSeen hahead hnext.neat hseen
  rcases operandsNormal_of_rebuilt hb with h | ⟨hrank, h⟩
  · exact h
  · have := hnext.bulk_le
    unfold Sinks at hback
    omega

/-- At the last stage a node is resolved when its rules are done. -/
theorem yields_normalized_node (hu : Unlimited options inv)
    (hv : ∀ path e, Yields inv (visit path e) fun r _ => Normalized e r) (e : Expr S) :
    Yields inv (settleNode options .collect Stage.collect.rules visit path fuel e) fun r _ =>
      Normalized e r := by
  have hnormal : ∀ {x : Expr S}, x.OperandsNormal → x.Resolved → x.RuleNormal :=
    fun ho hr => Expr.ruleNormal_iff.2 ⟨hr, ho⟩
  refine (hu.settleNode (R := Sinking) (W := fun _ => True) (Q := fun x => x.OperandsNormal)
    (P := fun x => x.RuleNormal) Sinking.trans (fun x _ => yields_operandsNormal hu hv x)
    (fun x m hsink hops hm => ⟨trivial, ?_⟩) (fun seen x hsink hops hahead hnone => ?_)
    (fun seen x m next hsink hops hahead hm hnext hnops hseen => ?_) trivial).mono
    fun r _ _ h => ⟨h.1, h.2⟩
  · exact (sinking_output hsink.neat hops hm).1
  · refine hnormal hops ?_
    by_contra hres
    obtain ⟨m, hm⟩ := Stage.exists_mem_of_not_resolved hsink.neat hres
    have hrank : ¬x.rank ≤ 2 := fun h => hres (hsink.neat.resolved_of_rank_le h)
    obtain ⟨hout, hlt⟩ := sinking_output hsink.neat hops hm
    have hout := hout.sinks hsink.neat
    -- the rule leads to a lower rank, so it does not lead back
    have hback : Sinks m.output x := by
      rcases hnone m hm with heq | hseen
      · exact (Expr.sinks_self x).congr_left (Expr.Congruent.of_beq heq).symm
      · exact sinks_of_isSeen hahead (neat_output hsink.neat hm) hseen
    unfold Sinks at hout hback
    omega
  · obtain ⟨hout, hlt⟩ := sinking_output hsink.neat hops hm
    refine hnormal hnops (hnext.neat.resolved_of_rank_le ?_)
    -- the rule led back, so it was not about a product or a transpose
    have hback := sinks_of_isSeen hahead hnext.neat hseen
    have hnext := hnext.sinks hout.neat
    have hout := hout.sinks hsink.neat
    unfold Sinks at hout hback hnext
    omega

theorem Normalized.congr (h : Normalized e r) (he : e.Congruent e') : Normalized e' r :=
  ⟨h.toSinking.congr he, h.normal⟩

/-- Without a limit the last stage resolves every node. -/
theorem yields_normalized (hb : options.budget = none) (path : List Nat) (e : Expr S) :
    Yields (Remembers options Normalized)
      (settle options .collect Stage.collect.rules fuel path e) fun r _ => Normalized e r := by
  refine Yields.settle (W := fun _ => True) (fun j e r hj hr => ?_) (fun j e r hj _ hr => ?_)
    (fun visit hv path fuel e _ => ?_) fuel path e trivial
  · obtain ⟨x, hx, hR⟩ := hj.exists_of_recall hr
    exact hR.congr (.of_beq hx)
  · exact hj.remember hr ⟨sinking_self hr.neat, hr.normal⟩
  · exact yields_normalized_node (unlimited_remembers hb _) (fun path e => hv path e trivial) e

/-- A stage that ends with its budget left does what it does without one. -/
theorem ruleNormal_of_collect {j k : Journal S} (hj : j.exhausted = false)
    (h : runStage options fuel .collect e j = .ok r k) (hk : k.exhausted = false) :
    r.RuleNormal := by
  have ho : Allows options { options with budget := none } := ⟨rfl, .inl rfl⟩
  obtain ⟨r', k', hr', hc, -⟩ :=
    mirrors_runStage ho fuel (.refl e) ⟨hj, hj, Nat.le_refl _⟩ h hk
  have hnormal := (yields_normalized rfl [1] e).runStage j (fun _ => hj) r' k' hr'
  exact hnormal.2.normal.congr hc.symm

/-- What the rounds end with is left by the last stage. -/
theorem ruleNormal_of_rounds {turns : Nat} {seen : List (Expr S)} {j k : Journal S}
    (h : rounds options fuel turns seen e j = .ok r k) (hk : k.exhausted = false) :
    r.RuleNormal := by
  induction turns generalizing seen e j with
  | zero => cases h
  | succ turns ih =>
    obtain ⟨next, i, hnext, hi, ⟨-, rfl, rfl⟩ | ⟨-, hrest⟩⟩ := rounds_succ h hk
    · rw [runStages_eq] at hnext
      obtain ⟨a, ja, -, hnext⟩ := bind_eq_ok hnext
      obtain ⟨b, jb, -, hnext⟩ := bind_eq_ok hnext
      exact ruleNormal_of_collect (((grows_runStage fuel b).of_ok hnext).left hi) hnext hi
    · exact ih hrest

/-- In what a run converges to, a transpose is of a variable or a differential, products associate
to the left, and no operand of a product is a sum or difference with a differential. -/
theorem run_normal (h : (run options fuel e).outcome = .converged r) :
    (∀ a, .transpose a ∈ r.postOrder → (∃ name, a = .var name) ∨ ∃ b, a = .differential b) ∧
    (∀ a b c, .matMul a (.matMul b c) ∉ r.postOrder) ∧
    ∀ a b, .matMul a b ∈ r.postOrder → ∀ s ∈ [a, b], ∀ x y,
      s = .add x y ∨ s = .sub x y → s.hasDifferential = false := by
  obtain ⟨k, hr, hk⟩ := rounds_of_converged h
  have hnormal := ruleNormal_of_rounds hr hk
  refine ⟨fun a ha => ?_, fun a b c habc => (hnormal _ habc).2.2 rfl, fun a b hab => ?_⟩
  · have hatom : a.isAtom = true := hnormal _ ha
    cases a with
    | var name => exact .inl ⟨name, rfl⟩
    | differential b => exact .inr ⟨b, rfl⟩
    | _ => cases hatom
  · have hoperand : ∀ s ∈ [a, b], s.isDistributed = false := by
      intro s hs
      obtain ⟨ha, hb, -⟩ := hnormal _ hab
      rcases List.mem_pair.1 hs with rfl | rfl
      · exact ha
      · exact hb
    intro s hs x y hxy
    have h := hoperand s hs
    rcases hxy with rfl | rfl <;> exact h

/-- A transposed product of a sum with differentials and another product. -/
def rawProduct : Expr Int :=
  .trace (.transpose (.matMul (.add (.var "A") (.differential (.var "X")))
    (.matMul (.var "B") (.transpose (.var "C")))))

theorem run_normal_rawProduct :
    ∃ r, (run ⟨some 20, true⟩ 20 rawProduct).outcome = .converged r ∧
      (∀ a, .transpose a ∈ r.postOrder → (∃ name, a = .var name) ∨ ∃ b, a = .differential b) ∧
      (∀ a b c, .matMul a (.matMul b c) ∉ r.postOrder) ∧
      ∀ a b, .matMul a b ∈ r.postOrder → ∀ s ∈ [a, b], ∀ x y,
        s = .add x y ∨ s = .sub x y → s.hasDifferential = false := by
  have hconverged :
      ((run ⟨some 20, true⟩ 20 rawProduct).outcome matches .converged _) = true := by
    decide +kernel
  cases hr : (run ⟨some 20, true⟩ 20 rawProduct).outcome with
  | converged r => exact ⟨r, rfl, run_normal hr⟩
  | _ =>
    rw [hr] at hconverged
    cases hconverged

end Canonical

end TraceCalculus
