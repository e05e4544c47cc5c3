import TraceCalculus.Proofs.Fuel

/-! # What a run leaves in its journal

Whatever a part of a run does, the steps of the journal it started with stay, the earliest first,
and a budget that ran out stays spent; without a limit it never runs out (`Canonical.Grows`). This
holds of what was done before the fuel ran out, too.
-/

set_option autoImplicit false

namespace TraceCalculus.Canonical

variable {S α β : Type}

/-- The journal a part of a run ends with, also when it runs out of fuel. -/
def after (m : Running S α) (j : Journal S) : Journal S :=
  match m j with
  | .ok _ k | .error _ k => k

theorem after_of_ok {m : Running S α} {j k : Journal S} {a : α} (h : m j = .ok a k) :
    after m j = k := by
  unfold after
  rw [h]

theorem after_of_error {m : Running S α} {j k : Journal S} {e : OutOfFuel} (h : m j = .error e k) :
    after m j = k := by
  unfold after
  rw [h]

theorem after_congr {m m' : Running S α} {j : Journal S} (h : m j = m' j) :
    after m j = after m' j := by
  unfold after
  rw [h]

theorem after_bind {m : Running S α} (f : α → Running S β) {j i : Journal S} {a : α}
    (h : m j = .ok a i) : after (m >>= f) j = after (f a) i := by
  unfold after
  rw [bind_ok f h]

theorem bind_error {m : Running S α} (f : α → Running S β) {j k : Journal S} {e : OutOfFuel}
    (h : m j = .error e k) : (m >>= f) j = .error e k := by
  change EStateM.bind m f j = _
  unfold EStateM.bind
  rw [h]

/-- A journal that another one may become. -/
structure Grown (options : Options) (j k : Journal S) : Prop where
  steps : j.steps.toList <+: k.steps.toList
  spent : j.exhausted = true → k.exhausted = true
  unspent : options.budget = none → j.exhausted = false → k.exhausted = false

/-- The part `m` of a run only adds to the journal. -/
def Grows (options : Options) (m : Running S α) : Prop := ∀ j, Grown options j (after m j)

variable {options : Options}

theorem grown_self (j : Journal S) : Grown options j j :=
  ⟨List.prefix_rfl, id, fun _ => id⟩

theorem Grown.trans {i j k : Journal S} (h : Grown options i j) (h' : Grown options j k) :
    Grown options i k :=
  ⟨h.steps.trans h'.steps, h'.spent ∘ h.spent, fun hb hi => h'.unspent hb (h.unspent hb hi)⟩

/-- A budget that is left at the end was left at the start. -/
theorem Grown.left {j k : Journal S} (h : Grown options j k) (hk : k.exhausted = false) :
    j.exhausted = false := by
  rw [← Bool.not_eq_true]
  intro hj
  rw [h.spent hj] at hk
  cases hk

theorem Grown.size_le {j k : Journal S} (h : Grown options j k) : j.steps.size ≤ k.steps.size :=
  h.steps.length_le

theorem Grows.of_ok {m : Running S α} (hm : Grows options m) {j k : Journal S} {a : α}
    (h : m j = .ok a k) : Grown options j k := by
  rw [← after_of_ok h]
  exact hm j

theorem grows_pure (a : α) : Grows options (pure a : Running S α) := grown_self

theorem grows_outOfFuel : Grows options (throw .outOfFuel : Running S α) := grown_self

theorem grows_get : Grows options (get : Running S (Journal S)) := grown_self

theorem Grows.bind {m : Running S α} {f : α → Running S β} (hm : Grows options m)
    (hf : ∀ a, Grows options (f a)) : Grows options (m >>= f) := by
  intro j
  have hj := hm j
  cases h : m j with
  | ok a i =>
    rw [after_of_ok h] at hj
    rw [after_bind f h]
    exact hj.trans (hf a i)
  | error e i =>
    rw [after_of_error h] at hj
    rw [after_of_error (bind_error f h)]
    exact hj

theorem Grows.ite {m m' : Running S α} (c : Prop) [Decidable c] (hm : Grows options m)
    (hm' : Grows options m') : Grows options (if c then m else m') := by
  split
  · exact hm
  · exact hm'

theorem grows_modify {f : Journal S → Journal S} (h : ∀ j, Grown options j (f j)) :
    Grows options (modify f : Running S PUnit) := h

theorem grows_spend (step : Step S) : Grows options (spend options step) := by
  intro j
  cases hb : options.budget.any (· ≤ j.steps.size) with
  | true =>
    rw [after_of_ok (spend_of_spent hb)]
    refine ⟨List.prefix_rfl, fun _ => rfl, fun hn => ?_⟩
    rw [hn] at hb
    cases hb
  | false =>
    rw [after_of_ok (spend_of_left hb)]
    refine ⟨?_, id, fun _ => id⟩
    rw [Array.toList_push]
    exact List.prefix_append _ _

variable [Scalar S] {stage : Stage} {rules : List (Rule S)}
  {visit : List Nat → Expr S → Running S (Expr S)}

theorem Grows.rebuild (hv : ∀ path e, Grows options (visit path e)) (path : List Nat)
    (e : Expr S) : Grows options (rebuild visit path e) := by
  cases e with
  | var | scalarVar | literal | null => exact grows_pure _
  | differential | trace | transpose => exact (hv _ _).bind fun _ => grows_pure _
  | add | sub | scale | matMul =>
    exact (hv _ _).bind fun _ => (hv _ _).bind fun _ => grows_pure _

theorem Grows.settleOperands (hv : ∀ path e, Grows options (visit path e)) (path : List Nat)
    (fuel : Nat) (seen : List (Expr S)) (e : Expr S) :
    Grows options (settleOperands visit path fuel seen e) := by
  induction fuel generalizing seen e with
  | zero => exact grows_outOfFuel
  | succ fuel ih =>
    exact (Grows.rebuild hv path e).bind fun next => grows_get.bind fun _ =>
      .ite _ (grows_pure next) (ih (next :: seen) next)

theorem Grows.applyRules {operands : Expr S → Running S (Expr S)}
    (hop : ∀ e, Grows options (operands e)) (path : List Nat) (fuel : Nat) (seen : List (Expr S))
    (previous : Option (Expr S)) (e : Expr S) :
    Grows options (applyRules options stage rules operands path fuel seen previous e) := by
  induction fuel generalizing seen previous e with
  | zero => exact grows_outOfFuel
  | succ fuel ih =>
    cases hc : choose rules seen previous e with
    | none =>
      rw [applyRules_none hc]
      exact grows_pure e
    | some m =>
      rw [applyRules_some hc]
      refine grows_get.bind fun _ => .ite _ (grows_pure e) ((grows_spend _).bind fun allowed => ?_)
      exact .ite _ ((hop m.output).bind fun next => .ite _ (grows_pure next) (ih _ _ next))
        (grows_pure e)

theorem Grows.settleNode (hv : ∀ path e, Grows options (visit path e)) (path : List Nat)
    (fuel : Nat) (e : Expr S) :
    Grows options (settleNode options stage rules visit path fuel e) :=
  (Grows.settleOperands hv path fuel [e] e).bind fun start =>
    .applyRules (fun x => .settleOperands hv path fuel [x] x) path fuel [start] none start

omit [Scalar S] in
/-- Remembering is no step. -/
theorem grows_remember (e r : Expr S) : Grows options
    (modify fun journal : Journal S =>
      if options.memoize && !journal.exhausted then journal.remember e r else journal) := by
  refine grows_modify fun j => ?_
  split
  · exact ⟨List.prefix_rfl, id, fun _ => id⟩
  · exact grown_self j

theorem grows_settle (fuel : Nat) (path : List Nat) (e : Expr S) :
    Grows options (settle options stage rules fuel path e) := by
  induction fuel generalizing path e with
  | zero => exact grows_outOfFuel
  | succ fuel ih =>
    intro j
    cases hs : if options.memoize = true then j.recall? e else none with
    | some settled =>
      rw [after_of_ok (settle_of_recalled hs)]
      exact grown_self j
    | none =>
      have hloops : Grows options (settleNode options stage rules _ path fuel e) :=
        .settleNode ih path fuel e
      have hnode := hloops.bind fun settled =>
        (grows_remember e settled).bind fun _ => grows_pure settled
      rw [after_congr (settle_of_fresh hs)]
      exact hnode j

theorem grows_runStage (fuel : Nat) (e : Expr S) :
    Grows options (runStage options fuel stage e) := by
  refine (grows_modify fun j => ?_).bind fun _ => grows_settle fuel [1] e
  exact ⟨List.prefix_rfl, id, fun _ => id⟩

theorem grows_runStages (fuel : Nat) (e : Expr S) : Grows options (runStages options fuel e) := by
  rw [runStages_eq]
  exact (grows_runStage fuel e).bind fun a => (grows_runStage fuel a).bind fun b =>
    grows_runStage fuel b

theorem grows_rounds (fuel turns : Nat) (seen : List (Expr S)) (e : Expr S) :
    Grows options (rounds options fuel turns seen e) := by
  induction turns generalizing seen e with
  | zero => exact grows_outOfFuel
  | succ turns ih =>
    exact (grows_runStages fuel e).bind fun next => grows_get.bind fun _ =>
      .ite _ (grows_pure next) (ih (next :: seen) next)

/-! ## Whole runs -/

theorem run_of_ok {fuel : Nat} {e r : Expr S} {j : Journal S}
    (h : rounds options fuel fuel [e] e {} = .ok r j) :
    run options fuel e = ⟨if j.exhausted then
      .exhausted ⟨options.budget.getD j.steps.size, r⟩ else .converged r, j.steps.toList⟩ := by
  unfold run
  rw [h]

theorem steps_run (options : Options) (fuel : Nat) (e : Expr S) :
    (run options fuel e).steps = (after (rounds options fuel fuel [e] e) {}).steps.toList := by
  unfold run after
  cases rounds options fuel fuel [e] e {} <;> rfl

/-- A run that converges ends with its budget unspent. -/
theorem rounds_of_converged {fuel : Nat} {e r : Expr S}
    (h : (run options fuel e).outcome = .converged r) :
    ∃ j, rounds options fuel fuel [e] e {} = .ok r j ∧ j.exhausted = false := by
  cases hr : rounds options fuel fuel [e] e {} with
  | error e j =>
    unfold run at h
    rw [hr] at h
    cases h
  | ok r' j =>
    rw [run_of_ok hr] at h
    cases hx : j.exhausted with
    | true =>
      rw [hx] at h
      cases h
    | false =>
      rw [hx] at h
      cases h
      exact ⟨j, rfl, hx⟩

end TraceCalculus.Canonical
