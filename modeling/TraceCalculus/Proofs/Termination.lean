import TraceCalculus.Proofs.Descent
import TraceCalculus.Proofs.Fuel
import TraceCalculus.Proofs.Isolation
import TraceCalculus.Proofs.TraceFunction

/-! # Every differential of a trace function has a canonical form

A stage under which expressions go down some weight ends (`Canonical.Descending.ends_settle`): each
pass over the operands that changes a node makes it lighter, each rule makes it lighter, and an
operand weighs no more than its node. The rounds end in the same way. So a run without a limit
converges on the differential of every trace function (`Expr.run_differentiate_converges`).
-/

set_option autoImplicit false

namespace TraceCalculus

namespace Canonical

variable {S : Type} {inv : Journal S → Prop} [ExactScalar S] {options : Options} {stage : Stage}
  {visit : Nat → List Nat → Expr S → Running S (Expr S)}

/-- A stage under which expressions of a domain go down a weight `w`. -/
structure Descending (W : Expr S → Prop) (stage : Stage) (R : Expr S → Expr S → Prop)
    (w : Expr S → Nat) : Prop extends Respected W stage R where
  weight_le : ∀ {a b}, W a → b ∈ a.children → w b ≤ w a
  descends : ∀ {a b}, W a → R a b → b = a ∨ w b < w a

namespace Descending

variable {W : Expr S → Prop} {R : Expr S → Expr S → Prop} {w : Expr S → Nat}

theorem le (h : Descending W stage R w) {a b : Expr S} (ha : W a) (hab : R a b) : w b ≤ w a := by
  rcases h.descends ha hab with rfl | hlt
  · exact Nat.le_refl _
  · exact hlt.le

theorem lt (h : Descending W stage R w) {a b : Expr S} (ha : W a) (hab : R a b)
    (hne : (b == a) = false) : w b < w a :=
  (h.descends ha hab).resolve_left fun heq => by simp [heq] at hne

/-- A pass over the operands that changes the node makes it lighter. -/
theorem ends_settleOperands (h : Descending W stage R w)
    (hr : ∀ path e, Rising fun F => visit F path e)
    (hy : ∀ F path e, W e → Yields inv (visit F path e) fun r _ => R e r) {path : List Nat}
    {x : Expr S} (hx : W x)
    (hends : ∀ y, W y → y = x ∨ w y < w x → ∀ a ∈ y.children, ∀ path,
      Ends inv (fun F => visit F path a) fun _ => True) (seen : List (Expr S)) :
    Ends inv (fun F => settleOperands (visit F) path F seen x) fun _ => True := by
  induction hw : w x using Nat.strong_induction_on generalizing x seen with
  | _ n ih =>
    subst hw
    have hpass : Ends inv (fun F => rebuild (visit F) path x) (Rebuilt R x) :=
      (Ends.rebuild hr (hends x hx (.inl rfl)) path).yields fun F =>
        Yields.rebuild (hy F) x fun a ha => h.operand hx ha
    refine hpass.settleOperands hr (fun _ _ _ _ _ => trivial) fun next hnext hne _ => ?_
    have hR := h.rebuilt hx hnext
    have hlt := h.lt hx hR hne
    exact ih (w next) hlt (h.result hx hR)
      (fun y hy hyn => hends y hy (.inr (hyn.elim (fun heq => heq ▸ hlt) (·.trans hlt))))
      (next :: seen) rfl

/-- Each rule makes the node lighter. -/
theorem ends_applyRules (h : Descending W stage R w) {operands : Nat → Expr S → Running S (Expr S)}
    (hr : ∀ e, Rising fun F => operands F e)
    (hy : ∀ F e, W e → Yields inv (operands F e) fun r _ => R e r) {path : List Nat}
    (hspend : ∀ step, Ends inv (fun _ => spend options step) fun _ => True) {a x : Expr S}
    (ha : W a) (hax : R a x)
    (hends : ∀ y, W y → w y < w x → Ends inv (fun F => operands F y) fun _ => True)
    (seen : List (Expr S)) (previous : Option (Expr S)) :
    Ends inv (fun F => applyRules options stage stage.rules (operands F) path F seen previous x)
      fun _ => True := by
  induction hw : w x using Nat.strong_induction_on generalizing a x seen previous with
  | _ n ih =>
    subst hw
    have hx := h.result ha hax
    have hout : ∀ m, choose stage.rules seen previous x = some m →
        R x m.output ∧ W m.output ∧ w m.output < w x := by
      intro m hc
      obtain ⟨hm, hne, -⟩ := mem_of_choose hc
      have hR := h.rule ha hax hm
      exact ⟨hR, h.result hx hR, h.lt hx hR hne⟩
    refine Ends.applyRules (p := fun next => ∃ y, W y ∧ w y < w x ∧ R y next) hr
      (fun _ _ _ => trivial) (fun _ => trivial) (fun step => (hspend step).mono fun _ h => .inr h)
      (fun m hc => ?_) (fun _ _ _ _ _ => trivial) fun m next hc hnext _ => ?_
    · obtain ⟨-, hW, hlt⟩ := hout m hc
      exact ((hends m.output hW hlt).yields fun F => hy F _ hW).mono fun next hnext =>
        ⟨m.output, hW, hlt, hnext⟩
    · obtain ⟨y, hW, hlt, hnext⟩ := hnext
      have hlt' := (h.le hW hnext).trans_lt hlt
      exact ih (w next) hlt' hW hnext (fun z hz hzn => hends z hz (hzn.trans hlt')) (next :: seen)
        (some m.rule.replacement) rfl

/-- A node is settled, if the operands of all nodes it goes through can be settled. -/
theorem ends_settleNode (h : Descending W stage R w)
    (hr : ∀ path e, Rising fun F => visit F path e)
    (hy : ∀ F path e, W e → Yields inv (visit F path e) fun r _ => R e r)
    (hspend : ∀ step : Step S, Ends inv (fun _ => spend options step) fun _ => True)
    {path : List Nat} {e : Expr S} (he : W e)
    (hends : ∀ y, W y → y = e ∨ w y < w e → ∀ a ∈ y.children, ∀ path,
      Ends inv (fun F => visit F path a) fun _ => True) :
    Ends inv (fun F => settleNode options stage stage.rules (visit F) path F e) fun _ => True := by
  have hro : ∀ x, Rising fun F => settleOperands (visit F) path F [x] x :=
    fun x => .settleOperands hr path [x] x
  have hyo : ∀ F x, W x → Yields inv (settleOperands (visit F) path F [x] x) fun r _ => R x r :=
    fun F x hx => h.settleOperands (hy F) hx
  have hop : ∀ x, W x → x = e ∨ w x < w e →
      Ends inv (fun F => settleOperands (visit F) path F [x] x) fun _ => True := by
    intro x hx hxe
    refine h.ends_settleOperands hr hy hx (fun y hy' hyx => hends y hy' ?_) [x]
    rcases hxe with rfl | hlt
    · exact hyx
    · exact .inr (hyx.elim (fun heq => heq ▸ hlt) (·.trans hlt))
  refine ((hop e he (.inl rfl)).yields fun F => hyo F e he).bind (hro e)
    (fun start => .applyRules hro path [start] none start) fun start hstart => ?_
  have hle := h.le he hstart
  exact h.ends_applyRules hro hyo hspend he hstart
    (fun y hy' hlt => hop y hy' (.inr (hlt.trans_le hle))) [start] none

/-- Every expression of the domain is settled. -/
theorem ends_settle (h : Descending W stage R w) {e : Expr S} (he : W e) (path : List Nat) :
    Ends (Remembers options R) (fun F => settle options stage stage.rules F path e)
      fun _ => True := by
  -- an operand of the node itself is smaller, an operand of a lighter node is lighter
  induction hw : w e using Nat.strong_induction_on generalizing e path with
  | _ n ih =>
    induction hs : e.size using Nat.strong_induction_on generalizing e path with
    | _ k ihs =>
      subst hw
      refine h.ends_settle_of_node he (h.ends_settleNode rising_settle
        (fun F path a ha => h.settle path ha) ends_spend_remembers he fun y hy' hye a ha path => ?_)
      have hWa := h.operand hy' ha
      have hle := h.weight_le hy' ha
      rcases hye with rfl | hlt
      · rcases Nat.lt_or_eq_of_le hle with hlt | heq
        · exact ih _ hlt hWa path rfl
        · exact ihs _ (hs ▸ size_lt_of_mem_children ha) hWa path heq rfl
      · exact ih _ (hle.trans_lt hlt) hWa path rfl

theorem ends_runStage (h : Descending W stage R w) {e : Expr S} (he : W e) :
    Ends (Unspent options) (fun F => runStage options F stage e) (R e) :=
  h.ends_runStage_of_settle he (h.ends_settle he [1])

end Descending

/-! ## Whole runs -/

variable {K P : Expr S → Prop}

/-- The rounds end if each one after the first leaves the expression as it is or makes it
lighter. -/
theorem ends_rounds {w : Expr S → Nat} (hPK : ∀ e, P e → K e)
    (hround : ∀ e, K e → Ends inv (fun F => Canonical.runStages options F e) fun r =>
      P r ∧ (P e → r = e ∨ w r < w e))
    {e : Expr S} (he : K e) (seen : List (Expr S)) :
    Ends inv (fun F => rounds options F F seen e) P := by
  have hlater : ∀ (n : Nat) (e : Expr S) (seen : List (Expr S)), P e → w e = n →
      Ends inv (fun F => rounds options F F seen e) P := by
    intro n
    induction n using Nat.strong_induction_on with
    | _ n ih =>
      intro e seen he hw
      refine (hround e (hPK e he)).rounds (fun _ _ _ hr _ => hr.1) fun r hr hne _ => ?_
      have hlt : w r < w e := (hr.2 he).resolve_left fun heq => by simp [heq] at hne
      exact ih _ (hw ▸ hlt) r (r :: seen) hr.1 rfl
  exact (hround e he).rounds (fun _ _ _ hr _ => hr.1) fun r hr _ _ =>
    hlater _ r (r :: seen) hr.1 rfl

/-- The first stage. -/
theorem descending_isolating {X : String} : Descending (Handled X : Expr S → Prop) .isolate
    (Settling X AtRight .isolating) (Expr.weight .isolating) where
  toRespected := respected_isolating
  weight_le := weight_operand_le
  descends _ h := h.descends

/-- All stages, once a differential is readable. -/
theorem descending_collecting {X : String} (stage : Stage) :
    Descending (Refined X : Expr S → Prop) stage (Settling X AtRight .collecting)
      (Expr.weight .collecting) where
  toRespected := respected_collecting stage
  weight_le h := weight_operand_le h.handled
  descends _ h := h.descends

end Canonical

namespace Expr

open Canonical

variable {S : Type} [ExactScalar S] {X : String}

theorem ends_runStages {options : Options} (hb : options.budget = none) {e : Expr S}
    (he : OrNull (Traced X) e) : Ends (Unspent options) (fun F => runStages options F e) fun r =>
      OrNull (Readable X) r ∧
        (OrNull (Readable X) e → r = e ∨ r.weight .collecting < e.weight .collecting) := by
  have hlater : ∀ stage {a : Expr S}, OrNull (Readable X) a → Ends (Unspent options)
      (fun F => runStage options F stage a) fun r =>
        OrNull (Readable X) r ∧ (r = a ∨ r.weight .collecting < a.weight .collecting) := by
    intro stage a ha
    have hWa : Refined X a := ha.imp_right fun ha => .inr (.inr (.inr ha))
    refine ((descending_collecting stage).ends_runStage hWa).mono fun r hr => ?_
    exact ⟨hr.retains.orNull ha hr.retains.readable, hr.descends⟩
  have htrans : ∀ {a b c : Expr S}, (b = a ∨ b.weight .collecting < a.weight .collecting) →
      (c = b ∨ c.weight .collecting < b.weight .collecting) →
      c = a ∨ c.weight .collecting < a.weight .collecting := Descends.trans
  have hWe : Handled X e := he.imp_right fun ht => .inr (.inr (.inr ht))
  have hfirst : Ends (Unspent options) (fun F => runStage options F .isolate e) fun r =>
      OrNull (Readable X) r ∧
        (OrNull (Readable X) e → r = e ∨ r.weight .collecting < e.weight .collecting) := by
    by_cases hr : OrNull (Readable X) e
    · exact (hlater .isolate hr).mono fun r h => ⟨h.1, fun _ => h.2⟩
    · exact ((descending_isolating.ends_runStage hWe).yields fun F => yields_isolate hb he).mono
        fun r h => ⟨h, fun h' => absurd h' hr⟩
  refine Ends.runStages hfirst (fun a ha => (hlater .normalize ha.1).mono
    (q := fun b => OrNull (Readable X) b ∧
      (OrNull (Readable X) e → b = e ∨ b.weight .collecting < e.weight .collecting))
    fun b hb => ⟨hb.1, fun he => htrans (ha.2 he) hb.2⟩) fun b hb => ?_
  exact (hlater .collect hb.1).mono fun c hc => ⟨hc.1, fun he => htrans (hb.2 he) hc.2⟩

/-- A run without a limit converges on the differential of every trace function, whether
subexpressions are remembered or not: from some amount of fuel on it ends with the same result, by
the same steps. -/
theorem run_differentiate_converges {f : Expr S} (hf : OrNull TraceFunction f) (memoize : Bool) :
    ∃ n r steps, ∀ fuel ≥ n,
      run ⟨none, memoize⟩ fuel (f.differentiate X) = ⟨.converged r, steps⟩ := by
  have hends : Ends (Unspent ⟨none, memoize⟩) (fun F => rounds ⟨none, memoize⟩ F F
      [f.differentiate X] (f.differentiate X)) (OrNull (Readable X)) :=
    ends_rounds (K := OrNull (Traced X)) (fun e he => he.imp Readable.traced)
      (fun e he => ends_runStages rfl he) (differentiate_of_orNull hf) [f.differentiate X]
  obtain ⟨n, r, j, hr, hj, -⟩ := hends {} fun _ => rfl
  have hrun : run ⟨none, memoize⟩ n (f.differentiate X) = ⟨.converged r, j.steps.toList⟩ := by
    have hr : rounds ⟨none, memoize⟩ n n [f.differentiate X] (f.differentiate X) {} = .ok r j := hr
    unfold run
    rw [hr]
    simp [hj rfl]
  refine ⟨n, r, j.steps.toList, fun fuel hn => ?_⟩
  rw [run_fuel hn (by rw [hrun]; nofun), hrun]

theorem run_differentiate_converges_square : ∃ n r steps, ∀ fuel ≥ n,
    run ⟨none, false⟩ fuel
      ((trace (matMul (var "X") (transpose (var "X"))) : Expr Int).differentiate "X") =
        ⟨.converged r, steps⟩ := by
  have hf : (trace (matMul (var "X") (transpose (var "X"))) : Expr Int).TraceFunction :=
    ⟨trivial, trivial⟩
  exact run_differentiate_converges (.inr hf) false

end Expr

end TraceCalculus
