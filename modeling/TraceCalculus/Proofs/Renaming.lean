import Mathlib.Logic.Equiv.Basic
import TraceCalculus.Proofs.Instances
import TraceCalculus.Proofs.Journals
import TraceCalculus.Proofs.Relabelling
import TraceCalculus.Proofs.RuleLaws
import TraceCalculus.Proofs.RunRules

/-! # Names do not matter

Rules have variables of their own, and these have names that an expression may use as well. Nothing
comes of that: an expression with other names is differentiated and canonicalized to the same result
with the other names, by the same steps (`Canonical.differentiate_run_rename`).

A pattern is matched against an expression with other names just as before
(`Expr.matchFrom_rename`), and a replacement whose variables have all taken something is filled in
just as before (`Expr.subst_rename`): no name of the rule is left, so none can be taken for a name of
the expression. From the choice of a rule on, a run compares expressions only, so each part of it
does the same with other names (`Canonical.Renames`).
-/

set_option autoImplicit false

namespace TraceCalculus

variable {S : Type}

/-- The expression with other names. -/
abbrev Expr.rename (ρ : String → String) (e : Expr S) : Expr S := e.relabel ρ id

theorem relabelling_id [Scalar S] {ρ : String → String} (hρ : Function.Injective ρ) :
    Relabelling ρ (id : S → S) := by
  constructor <;> first | exact hρ | exact fun _ _ => rfl | exact fun _ => rfl | rfl

/-- What the variables have taken, with other names in it. The variables are those of a pattern and
keep their names. -/
def Assignment.rename (ρ : String → String) (σ : Assignment S) : Assignment S :=
  σ.map fun p => (p.1, p.2.rename ρ)

@[simp] theorem Assignment.get?_rename (ρ : String → String) (σ : Assignment S) (name : String) :
    (σ.rename ρ).get? name = (σ.get? name).map (Expr.rename ρ) := by
  unfold Assignment.rename Assignment.get?
  induction σ with
  | nil => rfl
  | cons p σ ih =>
    rw [List.map_cons, List.lookup_cons, List.lookup_cons]
    split
    · rfl
    · exact ih

/-! ## Variables that have taken something -/

/-- All variables of the expression have taken something. -/
def Expr.Assigned (σ : Assignment S) : Expr S → Prop
  | .var name | .scalarVar name => (σ.get? name).isSome = true
  | .literal _ | .null => True
  | .differential a | .trace a | .transpose a => a.Assigned σ
  | .add a b | .sub a b | .scale a b | .matMul a b => a.Assigned σ ∧ b.Assigned σ

theorem Expr.Assigned.mono {σ τ : Assignment S} {e : Expr S} (h : e.Assigned σ)
    (hστ : σ.Within τ) : e.Assigned τ := by
  induction e with
  | var name | scalarVar name => exact hστ.isSome h
  | literal | null => trivial
  | differential _ ih | trace _ ih | transpose _ ih => exact ih h
  | add _ _ iha ihb | sub _ _ iha ihb | scale _ _ iha ihb | matMul _ _ iha ihb =>
    exact ⟨iha h.1, ihb h.2⟩

/-- A pattern that matches leaves none of its variables without anything. -/
theorem Expr.Matched.assigned [Scalar S] {σ τ : Assignment S} {e p : Expr S}
    (h : p.Matched e σ τ) : p.Assigned τ := by
  induction h with
  | var h | scalarVar _ h => exact Assignment.isSome_of_assign h
  | literal | null => trivial
  | differential _ _ ih | trace _ ih | transpose _ ih => exact ih
  | add _ hq ihp ihq | sub _ hq ihp ihq | scale _ hq ihp ihq | matMul _ hq ihp ihq =>
    exact ⟨ihp.mono hq.within, ihq⟩

/-- A replacement has only variables that its pattern has. -/
theorem Stage.assigned_replacement {σ : Assignment S} {stage : Stage} {rule : Rule S}
    (hr : rule ∈ stage.rules) (h : rule.pattern.Assigned σ) : rule.replacement.Assigned σ := by
  revert h
  refine forall_rules (P := fun rule => rule.pattern.Assigned σ → rule.replacement.Assigned σ)
    ?_ ?_ ?_ hr <;>
    simp +contextual [isolating, normalizing, collecting, Expr.Assigned]

/-! ## Matching and filling in -/

section Rules

variable [Scalar S] {ρ : String → String} (hρ : Function.Injective ρ)
include hρ

theorem Expr.beq_rename (a b : Expr S) : (a.rename ρ == b.rename ρ) = (a == b) :=
  beq_relabel (relabelling_id hρ) a b

theorem Assignment.assign_rename (σ : Assignment S) (name : String) (e : Expr S) :
    (σ.rename ρ).assign name (e.rename ρ) = (σ.assign name e).map (Assignment.rename ρ) := by
  unfold Assignment.assign
  rw [get?_rename]
  cases σ.get? name with
  | none => rfl
  | some taken =>
    simp only [Option.map_some, Expr.beq_rename hρ]
    split <;> rfl

/-- A pattern matches an expression with other names as it matches the expression. -/
theorem Expr.matchFrom_rename (p e : Expr S) (σ : Assignment S) :
    p.matchFrom (e.rename ρ) (σ.rename ρ) = (p.matchFrom e σ).map (Assignment.rename ρ) := by
  induction p generalizing e σ with
  | var name => exact Assignment.assign_rename hρ σ name e
  | scalarVar name =>
    simp only [matchFrom, isScalar_relabel]
    split
    · exact Assignment.assign_rename hρ σ name e
    · rfl
  | differential p ih =>
    simp only [matchFrom, hasDifferential, contains_relabel]
    split
    · exact ih e σ
    · rfl
  | literal x =>
    cases e <;> try rfl
    simp only [relabel, matchFrom, id]
    split <;> rfl
  | null => cases e <;> rfl
  | trace p ih | transpose p ih =>
    cases e <;> try rfl
    exact ih _ σ
  | add p q ihp ihq | sub p q ihp ihq | scale p q ihp ihq | matMul p q ihp ihq =>
    cases e <;> try rfl
    rename_i a b
    simp only [relabel, matchFrom]
    rw [ihp]
    cases p.matchFrom a σ with
    | error f => rfl
    | ok τ => exact ihq b τ

/-- Once all variables have taken something, only what they have taken is left of the names. -/
theorem Expr.subst_rename {σ : Assignment S} {r : Expr S} (h : r.Assigned σ) :
    r.subst (σ.rename ρ) = (r.subst σ).rename ρ := by
  have hρ' := relabelling_id (S := S) hρ
  induction r with
  | var name | scalarVar name =>
    obtain ⟨e, he⟩ := Option.isSome_iff_exists.1 h
    simp [subst, he]
  | literal | null => rfl
  | differential a ih =>
    rw [subst, subst, ih h]
    exact congrArg Expr.differential (relabel_asOperand hρ' _).symm
  | trace a ih =>
    rw [subst, subst, ih h]
    exact (relabel_traced ρ id _).symm
  | transpose a ih =>
    rw [subst, subst, ih h]
    exact (relabel_transposed ρ id _).symm
  | add a b iha ihb =>
    rw [subst, subst, iha h.1, ihb h.2]
    exact (relabel_plus hρ' _ _).symm
  | sub a b iha ihb =>
    rw [subst, subst, iha h.1, ihb h.2]
    exact (relabel_minus hρ' _ _).symm
  | scale a b iha ihb | matMul a b iha ihb =>
    rw [subst, subst, iha h.1, ihb h.2]
    exact (relabel_times hρ' _ _).symm

/-! ## Choosing a rule -/

/-- The match for the expression with other names. -/
def RuleMatch.rename (ρ : String → String) (m : RuleMatch S) : RuleMatch S :=
  { m with assignment := m.assignment.rename ρ }

theorem RuleMatch.of?_rename (e : Expr S) (rule : Rule S) (index : Nat) :
    of? (e.rename ρ) rule index = (of? e rule index).map (rename ρ) := by
  have hm : rule.pattern.matchFrom (e.rename ρ) [] =
      (rule.pattern.matchFrom e []).map (Assignment.rename ρ) :=
    Expr.matchFrom_rename hρ rule.pattern e []
  unfold of? Expr.matchAgainst
  rw [hm]
  cases rule.pattern.matchFrom e [] with
  | error f => rfl
  | ok σ =>
    simp only [Except.map, Assignment.get?_rename, Option.isSome_map]
    split <;> rfl

omit hρ [Scalar S] in
theorem RuleMatch.insert_rename (m : RuleMatch S) (l : List (RuleMatch S)) :
    insert (m.rename ρ) (l.map (rename ρ)) = (insert m l).map (rename ρ) := by
  induction l with
  | nil => rfl
  | cons n l ih =>
    simp only [List.map_cons, insert]
    rw [ih]
    change (if n.rule.size ≤ m.rule.size then _ else _) = _
    split <;> rfl

theorem ruleMatches_rename (e : Expr S) (rules : List (Rule S)) :
    ruleMatches (e.rename ρ) rules = (ruleMatches e rules).map (RuleMatch.rename ρ) := by
  unfold ruleMatches
  have hfound : (rules.zipIdx.filterMap fun p => RuleMatch.of? (e.rename ρ) p.1 p.2) =
      (rules.zipIdx.filterMap fun p => RuleMatch.of? e p.1 p.2).map (RuleMatch.rename ρ) := by
    simp only [RuleMatch.of?_rename hρ, List.map_filterMap]
  rw [hfound]
  generalize (rules.zipIdx.filterMap fun p => RuleMatch.of? e p.1 p.2) = l
  induction l with
  | nil => rfl
  | cons m l ih => rw [List.map_cons, List.foldr_cons, ih, RuleMatch.insert_rename, List.foldr_cons]

theorem RuleMatch.output_rename {stage : Stage} {e : Expr S} {m : RuleMatch S}
    (hm : m ∈ ruleMatches e stage.rules) : (m.rename ρ).output = m.output.rename ρ := by
  obtain ⟨hr, hmatch⟩ := mem_ruleMatches hm
  have hassigned := Stage.assigned_replacement hr (Expr.Matched.of_matchFrom hmatch).assigned
  rw [output_eq, output_eq]
  exact Expr.subst_rename hρ hassigned

namespace Canonical

theorem isSeen_rename (seen : List (Expr S)) (e : Expr S) :
    isSeen (seen.map (Expr.rename ρ)) (e.rename ρ) = isSeen seen e := by
  simp only [isSeen, List.any_map, Function.comp_def, Expr.beq_rename hρ]

theorem choose_rename (stage : Stage) (seen : List (Expr S)) (previous : Option (Expr S))
    (e : Expr S) :
    choose stage.rules (seen.map (Expr.rename ρ)) previous (e.rename ρ) =
      (choose stage.rules seen previous e).map (RuleMatch.rename ρ) := by
  unfold choose
  simp only [ruleMatches_rename hρ, List.filter_map, ← List.map_append, List.find?_map]
  refine congrArg (Option.map _) (List.find?_congr fun m hm => ?_)
  have hmem : m ∈ ruleMatches e stage.rules := by
    rcases List.mem_append.1 hm with hm | hm <;> exact (List.mem_filter.1 hm).1
  simp only [Function.comp_apply, RuleMatch.output_rename hρ hmem, Expr.beq_rename hρ,
    isSeen_rename hρ]

/-! ## The journal -/

end Canonical

end Rules

/-! ## A run with other names -/

/-- The step with other names in the node. The rule keeps its names. -/
def Step.rename (ρ : String → String) (step : Step S) : Step S :=
  { step with before := step.before.rename ρ, after := step.after.rename ρ }

namespace Canonical

/-- The journal with other names in it. -/
def Journal.rename (ρ : String → String) (j : Journal S) : Journal S where
  steps := j.steps.map (Step.rename ρ)
  exhausted := j.exhausted
  memo := j.memo.map fun p => (p.1.rename ρ, p.2.rename ρ)

@[simp] theorem Journal.rename_empty (ρ : String → String) : ({} : Journal S).rename ρ = {} := by
  simp [rename]

/-- How a part of a run ends, with other names in the journal and with `f` of the result. -/
def endRename {α β : Type} (ρ : String → String) (f : α → β) :
    EStateM.Result OutOfFuel (Journal S) α → EStateM.Result OutOfFuel (Journal S) β
  | .ok a j => .ok (f a) (j.rename ρ)
  | .error e j => .error e (j.rename ρ)

/-- With other names in the journal `m'` does what `m` does, and its result is `f` of that of `m`. -/
def Renames {α β : Type} (ρ : String → String) (f : α → β) (m : Running S α) (m' : Running S β) :
    Prop :=
  ∀ j, m' (j.rename ρ) = endRename ρ f (m j)

section Parts

variable {α β α' β' : Type} {ρ : String → String} {f : α → α'} {g : β → β'}

theorem renames_pure (a : α) : Renames (S := S) ρ f (pure a) (pure (f a)) := fun _ => rfl

theorem renames_outOfFuel : Renames (S := S) ρ f (throw .outOfFuel) (throw .outOfFuel) :=
  fun _ => rfl

theorem renames_get : Renames (S := S) ρ (Journal.rename ρ) get get := fun _ => rfl

theorem renames_modify {h k : Journal S → Journal S}
    (hh : ∀ j, k (j.rename ρ) = (h j).rename ρ) : Renames ρ id (modify h) (modify k) :=
  fun j => congrArg (EStateM.Result.ok PUnit.unit) (hh j)

theorem Renames.bind {m : Running S α} {m' : Running S α'} {k : α → Running S β}
    {k' : α' → Running S β'} (hm : Renames ρ f m m') (hk : ∀ a, Renames ρ g (k a) (k' (f a))) :
    Renames ρ g (m >>= k) (m' >>= k') := by
  intro j
  have hj := hm j
  cases h : m j with
  | ok a i =>
    rw [h] at hj
    rw [bind_ok k h, bind_ok k' hj]
    exact hk a i
  | error e i =>
    rw [h] at hj
    rw [bind_error k h, bind_error k' hj]
    rfl

theorem Renames.ite {m r : Running S α} {m' r' : Running S α'} {c c' : Bool} (hc : c' = c)
    (hr : Renames ρ f r r') (hm : Renames ρ f m m') :
    Renames ρ f (if c then r else m) (if c' then r' else m') := by
  subst hc
  cases c'
  · exact hm
  · exact hr

theorem renames_spend (options : Options) (step : Step S) :
    Renames ρ id (spend options step) (spend options (step.rename ρ)) := by
  intro j
  have hsize : (j.rename ρ).steps.size = j.steps.size := Array.size_map
  cases hb : options.budget.any (· ≤ j.steps.size) with
  | true =>
    rw [spend_of_spent hb, spend_of_spent (by rw [hsize]; exact hb)]
    rfl
  | false =>
    rw [spend_of_left hb, spend_of_left (by rw [hsize]; exact hb)]
    simp [endRename, Journal.rename]

end Parts

section Run

variable [Scalar S] {ρ : String → String} (hρ : Function.Injective ρ)
include hρ

theorem Journal.recall?_rename (j : Journal S) (e : Expr S) :
    (j.rename ρ).recall? (e.rename ρ) = (j.recall? e).map (Expr.rename ρ) := by
  have hfind : j.memo.find? ((fun p => p.1 == e.rename ρ) ∘ fun p => (p.1.rename ρ, p.2.rename ρ)) =
      j.memo.find? fun p => p.1 == e :=
    List.find?_congr fun p _ => Expr.beq_rename hρ p.1 e
  unfold Journal.recall? Journal.rename
  rw [List.find?_map, hfind, Option.map_map, Option.map_map]
  rfl

section Loops

open TraceCalculus.Expr

variable {options : Options} {stage : Stage} {visit visit' : List Nat → Expr S → Running S (Expr S)}
  (hv : ∀ path e, Renames ρ (Expr.rename ρ) (visit path e) (visit' path (e.rename ρ)))

include hv in
theorem Renames.rebuild (path : List Nat) (e : Expr S) :
    Renames ρ (Expr.rename ρ) (rebuild visit path e) (rebuild visit' path (e.rename ρ)) := by
  have hρ' := relabelling_id (S := S) hρ
  have hpure : ∀ {r r' : Expr S}, r.rename ρ = r' →
      Renames (S := S) ρ (rename ρ) (pure r) (pure r') := by
    rintro r r' rfl
    exact renames_pure r
  cases e with
  | var | scalarVar | literal | null => exact hpure rfl
  | differential a =>
    exact (hv _ a).bind fun a' => hpure (congrArg Expr.differential (relabel_asOperand hρ' a'))
  | trace a => exact (hv _ a).bind fun a' => hpure (relabel_traced ρ id a')
  | transpose a => exact (hv _ a).bind fun a' => hpure (relabel_transposed ρ id a')
  | add a b =>
    exact (hv _ a).bind fun a' => (hv _ b).bind fun b' => hpure (relabel_plus hρ' a' b')
  | sub a b =>
    exact (hv _ a).bind fun a' => (hv _ b).bind fun b' => hpure (relabel_minus hρ' a' b')
  | scale a b | matMul a b =>
    exact (hv _ a).bind fun a' => (hv _ b).bind fun b' => hpure (relabel_times hρ' a' b')

include hv in
theorem Renames.settleOperands (path : List Nat) (fuel : Nat) (seen : List (Expr S)) (e : Expr S) :
    Renames ρ (Expr.rename ρ) (settleOperands visit path fuel seen e)
      (settleOperands visit' path fuel (seen.map (Expr.rename ρ)) (e.rename ρ)) := by
  induction fuel generalizing seen e with
  | zero => exact renames_outOfFuel
  | succ fuel ih =>
    refine (rebuild hρ hv path e).bind fun next => renames_get.bind fun j => ?_
    refine .ite ?_ (renames_pure next) (ih (next :: seen) next)
    rw [Expr.beq_rename hρ, isSeen_rename hρ]
    rfl

theorem Renames.applyRules {operands operands' : Expr S → Running S (Expr S)}
    (hop : ∀ e, Renames ρ (Expr.rename ρ) (operands e) (operands' (e.rename ρ)))
    (path : List Nat) (fuel : Nat) (seen : List (Expr S)) (previous : Option (Expr S))
    (e : Expr S) :
    Renames ρ (Expr.rename ρ)
      (applyRules options stage stage.rules operands path fuel seen previous e)
      (applyRules options stage stage.rules operands' path fuel (seen.map (Expr.rename ρ)) previous
        (e.rename ρ)) := by
  induction fuel generalizing seen previous e with
  | zero => exact renames_outOfFuel
  | succ fuel ih =>
    have hchoose := choose_rename hρ stage seen previous e
    cases hc : choose stage.rules seen previous e with
    | none =>
      rw [hc] at hchoose
      rw [applyRules_none hc, applyRules_none hchoose]
      exact renames_pure e
    | some m =>
      rw [hc] at hchoose
      rw [applyRules_some hc, applyRules_some hchoose]
      have hout := RuleMatch.output_rename hρ (mem_of_choose hc).1
      refine renames_get.bind fun j => .ite rfl (renames_pure e) ?_
      rw [hout]
      refine (renames_spend options ⟨stage, path, m.rule, e, m.output⟩).bind fun allowed => ?_
      refine .ite rfl ?_ (renames_pure e)
      refine (hop m.output).bind fun next => ?_
      exact .ite (isSeen_rename hρ seen next) (renames_pure next) (ih (next :: seen) _ next)

include hv in
theorem Renames.settleNode (path : List Nat) (fuel : Nat) (e : Expr S) :
    Renames ρ (Expr.rename ρ) (settleNode options stage stage.rules visit path fuel e)
      (settleNode options stage stage.rules visit' path fuel (e.rename ρ)) :=
  (settleOperands hρ hv path fuel [e] e).bind fun start =>
    applyRules hρ (fun e => settleOperands hρ hv path fuel [e] e) path fuel [start] none start

end Loops

variable {options : Options} {stage : Stage}

theorem renames_settle (fuel : Nat) (path : List Nat) (e : Expr S) :
    Renames ρ (Expr.rename ρ) (settle options stage stage.rules fuel path e)
      (settle options stage stage.rules fuel path (e.rename ρ)) := by
  induction fuel generalizing path e with
  | zero => exact renames_outOfFuel
  | succ fuel ih =>
    intro j
    have hrecall : (if options.memoize then (j.rename ρ).recall? (e.rename ρ) else none) =
        (if options.memoize then j.recall? e else none).map (Expr.rename ρ) := by
      rw [Journal.recall?_rename hρ]
      split <;> rfl
    cases h : if options.memoize then j.recall? e else none with
    | some settled =>
      rw [h] at hrecall
      rw [settle_of_recalled h, settle_of_recalled hrecall]
      rfl
    | none =>
      rw [h] at hrecall
      rw [settle_of_fresh h, settle_of_fresh hrecall]
      refine (Renames.settleNode hρ ih path fuel e).bind (g := Expr.rename ρ) (fun settled => ?_) j
      refine (renames_modify fun j => ?_).bind fun _ => renames_pure settled
      change (if options.memoize && !j.exhausted then _ else _) = _
      split <;> rfl

theorem renames_runStage (fuel : Nat) (stage : Stage) (e : Expr S) :
    Renames ρ (Expr.rename ρ) (runStage options fuel stage e)
      (runStage options fuel stage (e.rename ρ)) :=
  (renames_modify (h := fun journal => { journal with memo := [] })
    (k := fun journal => { journal with memo := [] }) fun _ => rfl).bind fun _ =>
      renames_settle hρ fuel [1] e

theorem renames_runStages (fuel : Nat) (e : Expr S) :
    Renames ρ (Expr.rename ρ) (runStages options fuel e)
      (runStages options fuel (e.rename ρ)) := by
  rw [runStages_eq, runStages_eq]
  exact (renames_runStage hρ fuel .isolate e).bind fun a =>
    (renames_runStage hρ fuel .normalize a).bind fun b => renames_runStage hρ fuel .collect b

theorem renames_rounds (options : Options) (fuel turns : Nat) (seen : List (Expr S)) (e : Expr S) :
    Renames ρ (Expr.rename ρ) (rounds options fuel turns seen e)
      (rounds options fuel turns (seen.map (Expr.rename ρ)) (e.rename ρ)) := by
  induction turns generalizing seen e with
  | zero => exact renames_outOfFuel
  | succ turns ih =>
    refine (renames_runStages hρ fuel e).bind fun next => renames_get.bind fun j => ?_
    refine .ite ?_ (renames_pure next) (ih (next :: seen) next)
    rw [Expr.beq_rename hρ, isSeen_rename hρ]
    rfl

omit [Scalar S] hρ in
/-- How a run ended, with other names in the result. -/
def Outcome.rename (ρ : String → String) : Outcome S → Outcome S
  | .converged e => .converged (e.rename ρ)
  | .exhausted spent => .exhausted { spent with remainder := spent.remainder.rename ρ }
  | .outOfFuel => .outOfFuel

omit [Scalar S] hρ in
/-- A run that is over, with other names in the result and in the nodes of the steps. -/
def Record.rename (ρ : String → String) (record : Record S) : Record S where
  outcome := record.outcome.rename ρ
  steps := record.steps.map (Step.rename ρ)

/-- An expression with other names is differentiated and canonicalized to the same results with the
other names, whatever the names of the rules: a run ends in the same way, after the same steps. -/
theorem differentiate_run_rename (e : Expr S) :
    (∀ wrt, (e.rename ρ).differentiate (ρ wrt) = (e.differentiate wrt).rename ρ) ∧
      ∀ options fuel, run options fuel (e.rename ρ) = (run options fuel e).rename ρ := by
  refine ⟨fun wrt => (Expr.relabel_differentiate (relabelling_id hρ) e wrt).symm,
    fun options fuel => ?_⟩
  have hrounds := renames_rounds hρ options fuel fuel [e] e {}
  rw [Journal.rename_empty, List.map_singleton] at hrounds
  unfold run
  rw [hrounds]
  cases rounds options fuel fuel [e] e {} with
  | error _ journal => simp [endRename, Journal.rename, Record.rename, Outcome.rename]
  | ok result journal =>
    simp only [endRename, Record.rename, Journal.rename, Array.toList_map, Array.size_map]
    split <;> rfl

end Run

/-- The names of the rules, each exchanged with another. -/
def ruleNames : String ≃ String :=
  (Equiv.swap "X" "A").trans ((Equiv.swap "Y" "B").trans (Equiv.swap "k" "s"))

/-- An expression with names that rules have after the exchange. -/
def namedSum : Expr Int :=
  .trace (.scale (.scalarVar "k")
    (.add (.transpose (.differential (.var "X"))) (.matMul (.var "X") (.var "Y"))))

theorem differentiate_run_rename_ruleNames :
    namedSum.rename ruleNames = .trace (.scale (.scalarVar "s")
      (.add (.transpose (.differential (.var "A"))) (.matMul (.var "A") (.var "B")))) ∧
    (namedSum.rename ruleNames).differentiate "A" =
      (namedSum.differentiate "X").rename ruleNames ∧
    run {} 12 (namedSum.rename ruleNames) = (run {} 12 namedSum).rename ruleNames ∧
    (run {} 12 namedSum).steps.length = 3 := by
  obtain ⟨hdiff, hrun⟩ := differentiate_run_rename ruleNames.injective namedSum
  exact ⟨rfl, hdiff "X", hrun {} 12, by decide +kernel⟩

end Canonical

end TraceCalculus
