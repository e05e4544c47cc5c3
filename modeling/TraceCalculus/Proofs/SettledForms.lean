import TraceCalculus.Proofs.Memo

/-! # Settled forms

Over exact scalars a stage makes one expression of each expression of first order, and it does make
one (`Canonical.exists_unaided`, `Canonical.Unaided.unique`). What it is can be found from the
settled forms of the operands: the node is built over them (`Canonical.operated_of_rebuilt`), and if
a rule matches there, it goes on from what the rule makes of it (`Canonical.unaided_of_rule`).

All of this is about stages without a memo. With one they make the same (`yields_settle_unaided`).
-/

set_option autoImplicit false

namespace TraceCalculus

variable {S : Type}

namespace Expr

/-- `b` is lower than `a` in the order that every rule leads down. -/
def Lower (b a : Expr S) : Prop :=
  b.height < a.height ∨ b.height = a.height ∧
    (b.heft < a.heft ∨ b.heft = a.heft ∧ b.overhang < a.overhang)

variable {a b c e : Expr S}

theorem Lower.trans (h : Lower c b) (h' : Lower b a) : Lower c a := by
  unfold Lower at *
  omega

theorem Falls.lower (h : Falls 1 a b) : Lower b a := h.descends

theorem lower_of_le (hh : b.height ≤ a.height) (hw : b.heft < a.heft) : Lower b a := by
  unfold Lower
  omega

theorem wellFounded_lower : WellFounded (Lower : Expr S → Expr S → Prop) := by
  refine Subrelation.wf (fun {b a} h => ?_) (InvImage.wf
    (fun e : Expr S => (e.height, e.heft, e.overhang))
    (Nat.lt_wfRel.wf.prod_lex (Nat.lt_wfRel.wf.prod_lex Nat.lt_wfRel.wf)))
  change Prod.Lex _ _ _ _
  rw [Prod.lex_def]
  refine h.imp_right fun ⟨hh, h⟩ => ⟨hh, ?_⟩
  rw [Prod.lex_def]
  exact h

/-- Operands are lower than their node. -/
theorem lower_of_mem_children (h : a ∈ e.children) : Lower a e := by
  cases e <;> simp only [children, List.mem_cons, List.not_mem_nil, or_false] at h
  case differential | trace =>
    subst h
    have := heft_pos a
    apply lower_of_le <;> simp only [height, heft] <;> omega
  case transpose =>
    subst h
    have := Nat.le_mul_self (a.heft + 1)
    apply lower_of_le <;> simp only [height, heft] <;> omega
  case add | sub | scale | matMul =>
    rcases h with rfl | rfl <;> apply lower_of_le <;> simp only [height, heft] <;> omega

end Expr

open TraceCalculus.Expr (Neat Falls Lower Settled OperandsSettled)

namespace Canonical

variable [ExactScalar S] {stage : Stage} {a b e o r r' t x y : Expr S} {seen : List (Expr S)}
  {previous : Option (Expr S)} {path : List Nat}

/-- A stage makes one expression of an expression. -/
theorem Unaided.unique (h : Unaided stage e r) (h' : Unaided stage e r') : r = r' := by
  obtain ⟨F, x, k, hx, -, hc⟩ := h [] {} fun _ => rfl
  obtain ⟨F', x', k', hx', -, hc'⟩ := h' [] {} fun _ => rfl
  have hlarge := rising_settle [] e F _ (Nat.le_max_left F F') _ _ _ hx
  have hlarge' := rising_settle [] e F' _ (Nat.le_max_right F F') _ _ _ hx'
  cases hlarge.symm.trans hlarge'
  exact (hc.trans hc'.symm).eq

/-- What a stage makes of an expression of first order is settled, and no higher. -/
theorem Unaided.settles (h : Unaided stage e r) (he : e.order ≤ 1) : Settles stage e r := by
  obtain ⟨F, x, k, hx, -, hc⟩ := h [] {} fun _ => rfl
  have hyields : Yields (Remembers forgetting (Entry stage))
      (settle forgetting stage stage.rules F [] e) fun r _ =>
        Settles stage e r ∧ Unaided stage e r :=
    yields_settle_unaided rfl [] he
  obtain ⟨-, hs, -⟩ := hyields {} ⟨fun _ hp => absurd hp List.not_mem_nil, fun _ => rfl⟩ x k hx
  rwa [hc.eq]

/-- The loop over the operands makes `x` of `e`. -/
def Operated (stage : Stage) (e x : Expr S) : Prop := ∀ path, UnaidedOperands stage path [e] e x

/-- Once its operands are settled, a node that is built over them stays. -/
theorem operated_of_rebuilt (h : Rebuilt (Unaided stage) e x) (hn : x.Neat)
    (hs : x.OperandsSettled stage) : Operated stage e x := by
  intro path
  have hself : (x == x) = true := beq_self_eq_true x
  have hagain : Rebuilt (Unaided stage) x x := by
    have hb : Rebuilt (Unaided stage) x x.tidied := rebuilt_tidied fun a ha =>
      unaided_self (hs a ha) (hn.of_mem_children ha) (Expr.definite_exact a)
    rwa [hn.tidied] at hb
  cases hxe : x == e with
  | true => exact unaidedOperands_of_pass h path (.inl ⟨.inl hxe, rfl⟩)
  | false =>
    refine unaidedOperands_of_pass h path (.inr ⟨hxe, ?_, ?_⟩)
    · simpa [isSeen] using (ne_of_beq_false hxe).symm
    · exact unaidedOperands_of_pass hagain path (.inl ⟨.inl hself, rfl⟩)

theorem operated_self (hn : e.Neat) (hs : e.OperandsSettled stage) : Operated stage e e := by
  have hb : Rebuilt (Unaided stage) e e.tidied := rebuilt_tidied fun a ha =>
    unaided_self (hs a ha) (hn.of_mem_children ha) (Expr.definite_exact a)
  rw [hn.tidied] at hb
  exact operated_of_rebuilt hb hn hs

theorem unaidedRules_of_settled (h : ruleMatches x stage.rules = []) :
    UnaidedRules stage path seen previous x x :=
  unaidedRules_of_none (by simp [choose, h])

/-- If no rule matches once the operands are settled, that is the settled form. -/
theorem unaided_of_operated (h : Operated stage e r) (hr : ruleMatches r stage.rules = []) :
    Unaided stage e r :=
  unaided_of_node fun path => ⟨r, h path, unaidedRules_of_settled hr⟩

theorem choose_of_forall {rules : List (Rule S)} (previous : Option (Expr S))
    (hm : ruleMatches e rules ≠ []) (hout : ∀ m ∈ ruleMatches e rules, m.output = o) (hne : o ≠ e) :
    ∃ m, choose rules [e] previous e = some m ∧ m.output = o := by
  cases hc : choose rules [e] previous e with
  | none =>
    obtain ⟨m, hmem⟩ := List.exists_mem_of_ne_nil _ hm
    have hseen := eq_or_mem_of_choose_eq_none hc hmem
    rw [hout m hmem, List.mem_singleton, or_self] at hseen
    exact absurd hseen hne
  | some m => exact ⟨m, rfl, hout m (mem_of_choose hc).1⟩

/-- If all rules that match make the same of a node with settled operands, its settled form is what
comes of that. -/
theorem unaided_of_rule (hn : e.Neat) (hs : e.OperandsSettled stage)
    (hm : ruleMatches e stage.rules ≠ []) (hout : ∀ m ∈ ruleMatches e stage.rules, m.output = o)
    (hne : o ≠ e) (ho : Operated stage o r) (hr : ruleMatches r stage.rules = []) :
    Unaided stage e r := by
  refine unaided_of_node fun path => ⟨e, operated_self hn hs path, ?_⟩
  obtain ⟨m, hc, rfl⟩ := choose_of_forall none hm hout hne
  refine unaidedRules_of_some hc (ho path) ?_
  cases hseen : isSeen [e] r with
  | true => exact .inl ⟨rfl, rfl⟩
  | false => exact .inr ⟨rfl, unaidedRules_of_settled hr⟩

/-! ## There is a settled form -/

theorem exists_rebuilt {R : Expr S → Expr S → Prop} (h : ∀ a ∈ e.children, ∃ b, R a b) :
    ∃ x, Rebuilt R e x := by
  cases e with
  | var name => exact ⟨_, .var name⟩
  | scalarVar name => exact ⟨_, .scalarVar name⟩
  | literal x => exact ⟨_, .literal x⟩
  | null => exact ⟨_, .null⟩
  | differential a =>
    obtain ⟨b, hb⟩ := h a (.head _)
    exact ⟨_, .differential hb⟩
  | trace a =>
    obtain ⟨b, hb⟩ := h a (.head _)
    exact ⟨_, .trace hb⟩
  | transpose a =>
    obtain ⟨b, hb⟩ := h a (.head _)
    exact ⟨_, .transpose hb⟩
  | add a a' =>
    obtain ⟨b, hb⟩ := h a (.head _)
    obtain ⟨b', hb'⟩ := h a' (.tail _ (.head _))
    exact ⟨_, .add hb hb'⟩
  | sub a a' =>
    obtain ⟨b, hb⟩ := h a (.head _)
    obtain ⟨b', hb'⟩ := h a' (.tail _ (.head _))
    exact ⟨_, .sub hb hb'⟩
  | scale a a' =>
    obtain ⟨b, hb⟩ := h a (.head _)
    obtain ⟨b', hb'⟩ := h a' (.tail _ (.head _))
    exact ⟨_, .scale hb hb'⟩
  | matMul a a' =>
    obtain ⟨b, hb⟩ := h a (.head _)
    obtain ⟨b', hb'⟩ := h a' (.tail _ (.head _))
    exact ⟨_, .matMul hb hb'⟩

/-- Neat and of first order. -/
structure Regular (e : Expr S) : Prop where
  neat : e.Neat
  order_le : e.order ≤ 1

theorem Regular.of_mem_children (h : Regular e) (ha : a ∈ e.children) : Regular a :=
  ⟨h.neat.of_mem_children ha, (order_le_of_mem_children ha).trans h.order_le⟩

theorem Lowering.regular (h : Lowering e r) (he : Regular e) : Regular r :=
  ⟨h.neat, h.order_le.trans he.order_le⟩

/-- An expression that changes on the way has gone down. -/
theorem Lowering.lower (h : Lowering e r) (he : Regular e) (hne : r ≠ e) : Lower r e := by
  rcases h.moves he.neat with hc | hf
  · exact absurd hc.eq.symm hne
  · exact hf.lower

/-- The loop over the operands ends if the operands can be settled, here and further down. -/
theorem exists_unaidedOperands (he : Regular e)
    (h : ∀ y, Regular y → y = e ∨ Lower y e → ∀ a ∈ y.children, ∃ r, Unaided stage a r)
    (seen : List (Expr S)) : ∃ x, ∀ path, UnaidedOperands stage path seen e x := by
  induction e using Expr.wellFounded_lower.induction generalizing seen with
  | _ e ih =>
    obtain ⟨next, hsettled⟩ := exists_rebuilt (R := fun a b => Unaided stage a b ∧ Lowering a b)
      fun a ha => (h e he (.inl rfl) a ha).imp fun r hr =>
        ⟨hr, (hr.settles (he.of_mem_children ha).order_le).toLowering⟩
    have hb : Rebuilt (Unaided stage) e next := hsettled.mono fun _ _ h => h.1
    have hnext : Lowering e next := lowering_of_rebuilt (hsettled.mono fun _ _ h => h.2)
    by_cases hne : next = e
    · exact ⟨next, fun path => unaidedOperands_of_pass hb path (.inl ⟨.inl (by simp [hne]), rfl⟩)⟩
    · have hlow := hnext.lower he hne
      cases hseen : isSeen seen next with
      | true => exact ⟨next, fun path => unaidedOperands_of_pass hb path (.inl ⟨.inr hseen, rfl⟩)⟩
      | false =>
        obtain ⟨x, hx⟩ := ih next hlow (hnext.regular he)
          (fun y hy hyn => h y hy (.inr (hyn.elim (fun heq => heq ▸ hlow) (·.trans hlow))))
          (next :: seen)
        exact ⟨x, fun path => unaidedOperands_of_pass hb path
          (.inr ⟨by simpa using hne, hseen, hx path⟩)⟩

/-- What the loop over the operands ends with. -/
theorem Operated.lowering (h : Operated stage e x) (he : e.order ≤ 1) :
    Lowering e x ∧ x.OperandsSettled stage := by
  obtain ⟨F, y, k, hy, -, hc⟩ := h [] {} fun _ => rfl
  have hyields : Yields (Remembers forgetting (Entry stage))
      (settleOperands (settle forgetting stage stage.rules F) [] F [e] e) fun r _ =>
        Lowering e r ∧ r.OperandsSettled stage :=
    yields_operandsSettled (unlimited_remembers rfl (Entry stage))
      (fun path e he => (yields_settle_unaided rfl path he).mono fun _ _ _ h => h.1) he
  obtain ⟨-, hs⟩ := hyields {} ⟨fun _ hp => absurd hp List.not_mem_nil, fun _ => rfl⟩ y k hy
  rwa [hc.eq]

/-- The loop over the rules ends if the operands of what is lower can be settled. -/
theorem exists_unaidedRules (hx : Regular x)
    (h : ∀ y, Regular y → Lower y x → ∃ z, Operated stage y z) (seen : List (Expr S))
    (previous : Option (Expr S)) : ∃ r, ∀ path, UnaidedRules stage path seen previous x r := by
  induction x using Expr.wellFounded_lower.induction generalizing seen previous with
  | _ x ih =>
    cases hm : choose stage.rules seen previous x with
    | none => exact ⟨x, fun path => unaidedRules_of_none hm⟩
    | some m =>
      have hf := Stage.falls_output hx.neat hx.order_le (mem_of_choose hm).1
      have hout : Regular m.output :=
        (lowering_output hx.neat hx.order_le (mem_of_choose hm).1).regular hx
      obtain ⟨next, hnext⟩ := h m.output hout hf.lower
      cases hseen : isSeen seen next with
      | true => exact ⟨next, fun path => unaidedRules_of_some hm (hnext path) (.inl ⟨hseen, rfl⟩)⟩
      | false =>
        have hlow : Lowering m.output next := (hnext.lowering hout.order_le).1
        have hlower : Lower next x := by
          by_cases heq : next = m.output
          · exact heq ▸ hf.lower
          · exact (hlow.lower hout heq).trans hf.lower
        obtain ⟨r, hr⟩ := ih next hlower (hlow.regular hout)
          (fun y hy hyn => h y hy (hyn.trans hlower)) (next :: seen) (some m.rule.replacement)
        exact ⟨r, fun path => unaidedRules_of_some hm (hnext path) (.inr ⟨hseen, hr path⟩)⟩

/-- An expression of first order has a settled form. -/
theorem exists_unaided (stage : Stage) (he : Regular e) : ∃ r, Unaided stage e r := by
  induction e using Expr.wellFounded_lower.induction with
  | _ e ih =>
    have hoperated : ∀ y, Regular y → y = e ∨ Lower y e → ∃ z, Operated stage y z := by
      intro y hy hye
      refine exists_unaidedOperands hy (fun z hz hzy a ha => ?_) [y]
      refine ih a ?_ (hz.of_mem_children ha)
      have ha := Expr.lower_of_mem_children ha
      rcases hzy with rfl | hzy
      · exact hye.elim (fun heq => heq ▸ ha) ha.trans
      · exact hye.elim (fun heq => heq ▸ ha.trans hzy) (ha.trans hzy).trans
    obtain ⟨x, hx⟩ := hoperated e he (.inl rfl)
    have hlow := (hx.lowering he.order_le).1
    have hxe : x = e ∨ Lower x e := or_iff_not_imp_left.2 (hlow.lower he)
    obtain ⟨r, hr⟩ := exists_unaidedRules (hlow.regular he) (fun y hy hyx =>
      hoperated y hy (.inr (hxe.elim (fun heq => heq ▸ hyx) hyx.trans))) [x] none
    exact ⟨r, unaided_of_node fun path => ⟨x, hx path, hr path⟩⟩

theorem exists_operated (he : Regular e) : ∃ x, Operated stage e x :=
  exists_unaidedOperands he (fun _ hy _ _ ha => exists_unaided stage (hy.of_mem_children ha)) [e]

/-- What the operands make of a node has the settled form of the node. -/
theorem Unaided.of_operated (hx : Unaided stage x r) (h : Operated stage e x)
    (hself : Operated stage x x) (hreg : Regular x) : Unaided stage e r := by
  obtain ⟨r', hr'⟩ : ∃ r', ∀ path, UnaidedRules stage path [x] none x r' :=
    exists_unaidedRules hreg (fun y hy _ => exists_operated hy) [x] none
  obtain rfl := hx.unique (unaided_of_node fun path => ⟨x, hself path, hr' path⟩)
  exact unaided_of_node fun path => ⟨x, h path, hr' path⟩

end Canonical

end TraceCalculus
