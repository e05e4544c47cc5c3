import TraceCalculus.Differential
import TraceCalculus.Proofs.Building
import TraceCalculus.Proofs.FormulaMeaning
import TraceCalculus.Proofs.RunRules

/-! # What the constructors leave

An expression is simplified (`Expr.Simplified`) if building any of its nodes again changes nothing.
What is not a number is never equal to itself, so a simplified expression is definite
(`Expr.Definite`): each of its subexpressions compares equal to itself.

Apart from that, being simplified is a matter of the shape of each node over its operands
(`Expr.Neat`, `Expr.Neat.simplified`). The constructors make neat expressions of neat ones, and so do
reading a formula, differentiation, filling in the replacement of a rule, and a whole run, which may
start with any expression (`Canonical.run_neat`).
-/

set_option autoImplicit false

namespace TraceCalculus

namespace Expr

variable {S : Type} [Scalar S]

/-- Every subexpression compares equal to itself. -/
def Definite (e : Expr S) : Prop := ∀ s ∈ e.postOrder, (s == s) = true

/-- Building any subexpression again changes nothing. -/
def Simplified (e : Expr S) : Prop := ∀ s ∈ e.postOrder, (s.tidied == s) = true

/-- Every node is one that its constructor makes over its operands. -/
def Neat : Expr S → Prop
  | .add a b | .sub a b => a.Neat ∧ b.Neat ∧ a.Distinct b
  | .scale a b => a.Neat ∧ b.Neat ∧ a.Scaling b
  | .matMul a b => a.Neat ∧ b.Neat ∧ a.Multiplying b
  | .trace a => a.Neat ∧ a.isTraceable = true
  | .transpose a => a.Neat ∧ a.isTurnable = true
  | .differential a => a.Neat
  | _ => True

theorem Neat.of_mem_children {a e : Expr S} (he : e.Neat) (ha : a ∈ e.children) : a.Neat := by
  cases e <;> simp only [children, List.mem_cons, List.not_mem_nil, or_false] at ha
  case differential =>
    rw [ha]
    exact he
  case trace | transpose =>
    rw [ha]
    exact he.1
  case add | sub | scale | matMul =>
    rcases ha with rfl | rfl
    · exact he.1
    · exact he.2.1

/-! ## Neat operands give neat results -/

variable [NumericScalar S] {a b c e : Expr S}

theorem Product.neat (h : Product a b c) (ha : a.Neat) (hb : b.Neat) : c.Neat := by
  induction h with
  | nullLeft | nullRight | fold => trivial
  | oneLeft => exact hb
  | oneRight => exact ha
  | swap _ _ _ _ ih => exact ih trivial ha
  | mergeLeft _ _ _ _ iht ihc => exact ihc (iht ha hb.1) hb.2.1
  | scaleLeft hp hs hu =>
    rw [asOperand_numeric]
    exact ⟨ha, hb, hp, hs, hu⟩
  | mergeRight _ _ _ _ _ iht ihc => exact ihc (iht ha.1 hb) ha.2.1
  | scaleRight hp hs hs' hu =>
    refine ⟨hb, ha, ⟨⟨hp.right, hp.left, value?_eq_none_of_isScalar_eq_false hs, fun x hx => ?_⟩,
      hs', hu⟩⟩
    rw [hp.literal] at hx
    cases hx
  | mergeBoth _ _ _ _ _ _ iht ihm ihc => exact ihc (iht ha.1 hb.1) (ihm ha.2.1 hb.2.1)
  | hoistLeft _ _ _ _ _ _ ihm ihc => exact ihc ha.1 (ihm ha.2.1 hb)
  | hoistRight _ _ _ _ _ _ ihm ihc => exact ihc hb.1 (ihm ha hb.2.1)
  | matMul hp hl hr hul hur => exact ⟨ha, hb, hp, hl, hr, hul, hur⟩

theorem Neat.times (ha : a.Neat) (hb : b.Neat) : (a * b).Neat := (product_times a b).neat ha hb

theorem Plus.neat (h : Plus a b c) (ha : a.Neat) (hb : b.Neat) : c.Neat := by
  cases h with
  | nullLeft => exact hb
  | nullRight => exact ha
  | fold => trivial
  | double _ _ hc => exact hc.neat trivial ha
  | add h =>
    rw [asOperand_numeric, asOperand_numeric]
    exact ⟨ha, hb, h⟩

theorem Neat.plus (ha : a.Neat) (hb : b.Neat) : (a + b).Neat := (plus_add a b).neat ha hb

theorem Minus.neat (h : Minus a b c) (ha : a.Neat) (hb : b.Neat) : c.Neat := by
  cases h with
  | nullRight => exact ha
  | nullLeft _ hc => exact hc.neat trivial hb
  | cancel | fold => trivial
  | sub h =>
    rw [asOperand_numeric, asOperand_numeric]
    exact ⟨ha, hb, h⟩

theorem Neat.minus (ha : a.Neat) (hb : b.Neat) : (a - b).Neat := (minus_sub a b).neat ha hb

theorem Neat.negated (ha : a.Neat) : (-a).Neat := Neat.times (a := .literal (-1)) trivial ha

omit [NumericScalar S] in
theorem Transposition.neat (h : Transposition a c) (ha : a.Neat) : c.Neat := by
  cases h with
  | null => trivial
  | turnBack => exact ha.1
  | trace | scalar => exact ha
  | transpose h => exact ⟨ha, h⟩

omit [NumericScalar S] in
theorem Neat.transposed (ha : a.Neat) : a.transposed.Neat := (transposition_transposed a).neat ha

omit [NumericScalar S] in
theorem Tracing.neat (h : Tracing a c) (ha : a.Neat) : c.Neat := by
  cases h with
  | null => trivial
  | scalar => exact ha
  | trace h => exact ⟨ha, h⟩

omit [NumericScalar S] in
theorem Neat.traced (ha : a.Neat) : a.traced.Neat := (tracing_traced a).neat ha

/-! ## Building a node again -/

/-- Over neat operands the node that is built again is neat. -/
theorem neat_tidied (h : ∀ a ∈ e.children, a.Neat) : e.tidied.Neat := by
  cases e with
  | var | scalarVar | literal | null => trivial
  | differential a => exact h a (.head _)
  | add a b => exact (h a (.head _)).plus (h b (.tail _ (.head _)))
  | sub a b => exact (h a (.head _)).minus (h b (.tail _ (.head _)))
  | scale a b | matMul a b => exact (h a (.head _)).times (h b (.tail _ (.head _)))
  | trace a => exact (h a (.head _)).traced
  | transpose a => exact (h a (.head _)).transposed

/-- A neat expression is what its constructor makes of its operands. -/
theorem Neat.tidied (he : e.Neat) : e.tidied = e := by
  cases e with
  | var | scalarVar | literal | null | differential => rfl
  | add => simpa [Expr.tidied] using plus_of_distinct he.2.2
  | sub => simpa [Expr.tidied] using minus_of_distinct he.2.2
  | scale => simpa [Expr.tidied] using times_of_scaling he.2.2
  | matMul => exact times_of_multiplying he.2.2
  | trace => exact traced_of_isTraceable he.2
  | transpose => exact transposed_of_isTurnable he.2

/-! ## Congruent expressions -/

section Congruent

variable {a' b' : Expr S}

theorem Congruent.isTurnable_eq (h : a.Congruent a') : a.isTurnable = a'.isTurnable := by
  have hs := h.isScalar_eq
  cases h <;> simp_all [isTurnable, isScalar]

theorem Congruent.isTraceable_eq (h : a.Congruent a') : a.isTraceable = a'.isTraceable := by
  simp only [isTraceable, h.isNull_eq, h.isScalar_eq]

theorem Congruent.scaled?_eq_none (h : a.Congruent a') (ha : a.scaled? = none) :
    a'.scaled? = none := by
  cases h <;> first | rfl | cases ha

theorem Congruent.value?_eq_none (h : a.Congruent a') (ha : a.value? = none) :
    a'.value? = none := by
  cases h <;> first | rfl | cases ha

theorem Distinct.congr (h : a.Distinct b) (ha : a.Congruent a') (hb : b.Congruent b') :
    a'.Distinct b' where
  left := ha.isNull_eq ▸ h.left
  right := hb.isNull_eq ▸ h.right
  literal := h.literal.imp ha.value?_eq_none hb.value?_eq_none
  ne := ha.beq hb ▸ h.ne

theorem Proper.congr (h : Proper a b) (ha : a.Congruent a') (hb : b.Congruent b') :
    Proper a' b' where
  left := ha.isNull_eq ▸ h.left
  right := hb.isNull_eq ▸ h.right
  literal := hb.value?_eq_none h.literal
  one y hy := by
    cases ha <;> cases hy
    rename_i x hxy
    rw [← CongruentScalar.beq_congr hxy (CongruentScalar.refl 1)]
    exact h.one x rfl

theorem Scaling.congr (h : a.Scaling b) (ha : a.Congruent a') (hb : b.Congruent b') :
    a'.Scaling b' where
  toProper := h.toProper.congr ha hb
  scalar := ha.isScalar_eq ▸ h.scalar
  unscaled := hb.scaled?_eq_none h.unscaled

theorem Multiplying.congr (h : a.Multiplying b) (ha : a.Congruent a') (hb : b.Congruent b') :
    a'.Multiplying b' where
  toProper := h.toProper.congr ha hb
  matrixLeft := ha.isScalar_eq ▸ h.matrixLeft
  matrixRight := hb.isScalar_eq ▸ h.matrixRight
  unscaledLeft := ha.scaled?_eq_none h.unscaledLeft
  unscaledRight := hb.scaled?_eq_none h.unscaledRight

theorem Neat.congr (h : a.Neat) (ha : a.Congruent a') : a'.Neat := by
  induction ha with
  | var | scalarVar | literal | null => trivial
  | differential _ ih => exact ih h
  | add ha hb iha ihb | sub ha hb iha ihb => exact ⟨iha h.1, ihb h.2.1, h.2.2.congr ha hb⟩
  | scale ha hb iha ihb => exact ⟨iha h.1, ihb h.2.1, h.2.2.congr ha hb⟩
  | matMul ha hb iha ihb => exact ⟨iha h.1, ihb h.2.1, h.2.2.congr ha hb⟩
  | trace ha ih => exact ⟨ih h.1, ha.isTraceable_eq ▸ h.2⟩
  | transpose ha ih => exact ⟨ih h.1, ha.isTurnable_eq ▸ h.2⟩

end Congruent

/-! ## Simplified expressions -/

theorem beq_self_iff : (e == e) = true ↔ ∀ x, .literal x ∈ e.postOrder → (x == x) = true := by
  change e.same e = true ↔ _
  rw [same_eq_sameOperand NumericScalar.alike_eq]
  induction e with
  | literal y => simp [sameOperand, postOrder, NumericScalar.alike_eq]
  | _ => simp_all [sameOperand, postOrder, or_imp, forall_and]

/-- An expression is definite if no literal in it is something that is not a number. -/
theorem definite_iff : e.Definite ↔ ∀ x, .literal x ∈ e.postOrder → (x == x) = true := by
  refine ⟨fun h x hx => h _ hx, fun h s hs => beq_self_iff.2 fun x hx => h x ?_⟩
  exact forall_postOrder_of_inherited (P := fun s => ∀ t ∈ s.postOrder, t ∈ e.postOrder)
    (fun h ha t ht => h t (mem_postOrder_of_mem_children ha ht)) (fun _ ht => ht) s hs _ hx

/-- What compares equal to something is definite. -/
theorem definite_of_beq (h : (a == b) = true) : a.Definite := by
  rw [definite_iff, ← beq_self_iff, Congruent.beq (.refl a) (.of_beq h)]
  exact h

theorem definite_exact {T : Type} [ExactScalar T] (e : Expr T) : e.Definite :=
  fun s _ => beq_self_eq_true s

theorem Simplified.definite (h : e.Simplified) : e.Definite := by
  intro s hs
  have heq := h s hs
  rwa [(Congruent.of_beq heq).beq (.refl s)] at heq

theorem Simplified.neat (h : e.Simplified) : e.Neat := by
  induction e using children_induction with
  | step e ih =>
    obtain ⟨hroot, hchildren⟩ := forall_postOrder_iff.1 h
    exact (neat_tidied fun a ha => ih a ha (hchildren a ha)).congr (.of_beq hroot)

theorem Neat.simplified (h : e.Neat) (hd : e.Definite) : e.Simplified := by
  intro s hs
  rw [(forall_postOrder_of_inherited Neat.of_mem_children h s hs).tidied]
  exact hd s hs

theorem Simplified.transposed (h : e.Simplified) : e.transposed.Simplified := by
  refine h.neat.transposed.simplified (definite_iff.2 fun x hx => definite_iff.1 h.definite x ?_)
  have ht := transposition_transposed e
  generalize e.transposed = c at hx ht
  cases ht <;> simp_all [postOrder]

theorem Simplified.traced (h : e.Simplified) : e.traced.Simplified := by
  refine h.neat.traced.simplified (definite_iff.2 fun x hx => definite_iff.1 h.definite x ?_)
  have ht := tracing_traced e
  generalize e.traced = c at hx ht
  cases ht <;> simp_all [postOrder]

omit [NumericScalar S] in
/-- A transpose is not on a transpose. -/
theorem Neat.not_double_transpose (h : e.Neat) (a : Expr S) :
    .transpose (.transpose a) ∉ e.postOrder := by
  intro ha
  have hn := forall_postOrder_of_inherited Neat.of_mem_children h _ ha
  cases hn.2

/-! ## What is built with the constructors -/

theorem Neat.differentiate (wrt : String) (h : e.Neat) : (e.differentiate wrt).Neat := by
  induction e with
  | scalarVar | literal | null | differential => trivial
  | var name =>
    unfold Expr.differentiate
    split
    · trivial
    · trivial
  | add a b iha ihb => exact (iha h.1).plus (ihb h.2.1)
  | sub a b iha ihb => exact (iha h.1).minus (ihb h.2.1)
  | scale a b _ ihb => exact h.1.times (ihb h.2.1)
  | matMul a b iha ihb => exact ((iha h.1).times h.2.1).plus (h.1.times (ihb h.2.1))
  | trace a ih => exact (ih h.1).traced
  | transpose a ih => exact (ih h.1).transposed

theorem neat_subst {σ : Assignment S} (h : σ.All Neat) (r : Expr S) : (r.subst σ).Neat := by
  have hget : ∀ (name : String) (e : Expr S), e.Neat → ((σ.get? name).getD e).Neat := by
    intro name e he
    cases hn : σ.get? name with
    | none => exact he
    | some x => exact h name x hn
  induction r with
  | var name => exact hget name _ trivial
  | scalarVar name => exact hget name _ trivial
  | literal | null => trivial
  | differential a ih =>
    rw [subst, asOperand_numeric]
    exact ih
  | add a b iha ihb => exact iha.plus ihb
  | sub a b iha ihb => exact iha.minus ihb
  | scale a b iha ihb | matMul a b iha ihb => exact iha.times ihb
  | trace a ih => exact ih.traced
  | transpose a ih => exact ih.transposed

omit [NumericScalar S] in
theorem neat_of_leaf (e : Expr S) (h : e.children = []) : e.Neat := by cases e <;> trivial

theorem Filled.neat {a b : Expr S} (h : Filled Neat a b) : b.Neat := by
  induction h with
  | kept ha => exact ha
  | add _ _ iha ihb => exact iha.plus ihb
  | sub _ _ iha ihb => exact iha.minus ihb
  | scale _ hk _ ihb => exact hk.times ihb
  | matMul _ _ iha ihb => exact iha.times ihb
  | trace _ iha => exact iha.traced
  | transpose _ iha => exact iha.transposed

end Expr

open TraceCalculus.Expr (Neat)

variable {S : Type} [Scalar S] [NumericScalar S]

theorem Rule.neat_apply (rule : Rule S) {σ : Assignment S} (h : σ.All Neat) :
    (rule.apply σ).Neat := by
  unfold Rule.apply
  rw [Template.fill_ofExpr]
  exact Expr.neat_subst h rule.replacement

/-! ## Formulas -/

namespace Formula

variable {declared : Declarations} {e : Expr S}

omit [NumericScalar S] in
theorem neat_named (name : String) : (named declared name : Expr S).Neat := by
  unfold named
  split <;> trivial

theorem Tree.Denotes.neat {t : Tree S} (h : t.Denotes declared e) : e.Neat := by
  induction h with
  | number => trivial
  | symbol => exact neat_named _
  | paren _ ih => exact ih
  | neg _ ih => exact ih.negated
  | transpose _ ih => exact ih.transposed
  | binary op _ _ iha ihb =>
    cases op with
    | plus => exact iha.plus ihb
    | minus => exact iha.minus ihb
    | times => exact iha.times ihb
  | trace _ _ ih => exact ih.traced
  | differential => exact neat_named _

end Formula

theorem Expr.neat_read {declared : Declarations} {source : String} {e : Expr S}
    (h : Expr.read declared source = .ok e) : e.Neat := by
  obtain ⟨f, -, hf⟩ := Expr.read_eq_ok.1 h
  exact (Formula.toExpr_eq_ok.1 hf).neat

/-! ## Runs -/

namespace Canonical

variable {options : Options} {stage : Stage} {e r : Expr S}

theorem neat_of_rebuilt (h : Rebuilt (fun _ r => r.Neat) e r) : r.Neat := by
  cases h with
  | var | scalarVar | literal | null => trivial
  | differential ha =>
    rw [Expr.asOperand_numeric]
    exact ha
  | add ha hb => exact ha.plus hb
  | sub ha hb => exact ha.minus hb
  | scale ha hb | matMul ha hb => exact ha.times hb
  | trace ha => exact ha.traced
  | transpose ha => exact ha.transposed

theorem neat_output {rules : List (Rule S)} {m : RuleMatch S} (he : e.Neat)
    (hm : m ∈ ruleMatches e rules) : m.output.Neat := by
  have hσ : Assignment.All Neat ([] : Assignment S) := nofun
  exact m.rule.neat_apply (hσ.matchFrom Neat.of_mem_children he (mem_ruleMatches hm).2)

/-- Whatever a stage starts with, it ends with a neat expression. -/
theorem respected_neat (stage : Stage) :
    Respected (fun _ => True) stage (fun _ r : Expr S => r.Neat) where
  operand _ _ := trivial
  result _ _ := trivial
  trans _ h := h
  recalled _ h := h
  self _ h := h
  rebuilt _ h := neat_of_rebuilt h
  rule _ h hm := neat_output h hm

theorem run_neat {fuel : Nat} (hr : (run options fuel e).outcome.result? = some r) : r.Neat :=
  Respected.run respected_neat trivial hr

end Canonical

/-- The constructors, reading a formula, differentiation and rules make simplified expressions of
simplified ones, and a run makes a simplified expression of any, whether it converges or is cut
short; all of that as long as no literal of the result is something that is not a number. A run
leaves no double transpose. -/
theorem simplified_closed :
    (∀ a b : Expr S, a.Simplified → b.Simplified →
      ((a + b).Simplified ↔ (a + b).Definite) ∧ ((a - b).Simplified ↔ (a - b).Definite) ∧
      ((a * b).Simplified ↔ (a * b).Definite) ∧ ((-a).Simplified ↔ (-a).Definite) ∧
      a.transposed.Simplified ∧ a.traced.Simplified) ∧
    (∀ (declared : Declarations) (source : String) (e : Expr S),
      Expr.read declared source = .ok e → (e.Simplified ↔ e.Definite)) ∧
    (∀ (wrt : String) (e : Expr S), e.Simplified →
      ((e.differentiate wrt).Simplified ↔ (e.differentiate wrt).Definite)) ∧
    (∀ (rule : Rule S) (σ : Assignment S), σ.All Expr.Simplified →
      ((rule.apply σ).Simplified ↔ (rule.apply σ).Definite)) ∧
    ∀ (options : Canonical.Options) (fuel : Nat) (e r : Expr S),
      (Canonical.run options fuel e).outcome.result? = some r →
        (r.Simplified ↔ r.Definite) ∧ ∀ a, .transpose (.transpose a) ∉ r.postOrder := by
  have key : ∀ {e : Expr S}, e.Neat → (e.Simplified ↔ e.Definite) :=
    fun h => ⟨Expr.Simplified.definite, h.simplified⟩
  refine ⟨fun a b ha hb => ?_, fun _ _ _ h => key (Expr.neat_read h),
    fun wrt _ h => key (h.neat.differentiate wrt),
    fun rule σ h => key (rule.neat_apply fun name e he => (h name e he).neat),
    fun _ _ _ r h => ?_⟩
  · exact ⟨key (ha.neat.plus hb.neat), key (ha.neat.minus hb.neat), key (ha.neat.times hb.neat),
      key ha.neat.negated, ha.transposed, ha.traced⟩
  · exact ⟨key (Canonical.run_neat h), (Canonical.run_neat h).not_double_transpose⟩

/-- Nothing in it is simplified, and its differential has a literal that folds. -/
def rawQuadratic : Expr Int :=
  .transpose (.transpose (.matMul (.literal 3) (.matMul (.var "X") (.scale (.literal 2) (.var "X")))))

theorem simplified_closed_rawQuadratic :
    ∃ r, (Canonical.run ⟨some 1, true⟩ 12 rawQuadratic).outcome.result? = some r ∧
      r.Simplified ∧ (r + r.differentiate "X").Simplified := by
  have hs : ((Canonical.run ⟨some 1, true⟩ 12 rawQuadratic).outcome.result?).isSome = true := by
    decide +kernel
  obtain ⟨r, hr⟩ := Option.isSome_iff_exists.1 hs
  have hrun := (simplified_closed.2.2.2.2 ⟨some 1, true⟩ 12 rawQuadratic r hr).1.2 r.definite_exact
  have hd := (simplified_closed.2.2.1 "X" r hrun).2 (Expr.definite_exact _)
  exact ⟨r, hr, hrun, (simplified_closed.1 r _ hrun hd).1.2 (Expr.definite_exact _)⟩

end TraceCalculus
