import TraceCalculus.Proofs.Instances
import TraceCalculus.Proofs.Journals
import TraceCalculus.Proofs.RunRules

/-! # What the steps of a run record

A step that a run records is the application of a rule of its stage to the node as it then was
(`Step.Genuine`). The parts of a run share the place and the journal, so this is an invariant of the
journal: `Records inv m post` says that the part `m` keeps `inv`, also where it runs out of fuel, and
that `post` holds of its result. There is one rule for each loop (`Records.settleOperands` and so
on).

A rule is applied to a node whose operands are settled. What building a node over such operands
ensures therefore holds of every node that a step has changed (`genuine_of_mem_run`), with what is
remembered as part of the invariant (`Logged`).
-/

set_option autoImplicit false

namespace TraceCalculus

/-- A place in an expression: the root, and from there on first and second operands. -/
def IsPlace (path : List Nat) : Prop := ∃ rest, path = 1 :: rest ∧ ∀ i ∈ rest, i = 1 ∨ i = 2

theorem isPlace_root : IsPlace [1] := ⟨[], rfl, nofun⟩

theorem IsPlace.operand {path : List Nat} (h : IsPlace path) {i : Nat} (hi : i = 1 ∨ i = 2) :
    IsPlace (path ++ [i]) := by
  obtain ⟨rest, rfl, hrest⟩ := h
  refine ⟨rest ++ [i], rfl, fun k hk => ?_⟩
  rcases List.mem_append.1 hk with hk | hk
  · exact hrest k hk
  · rw [List.mem_singleton.1 hk]
    exact hi

/-- The step is at a place, and is the application of a rule of its stage that changes the node. -/
structure Step.Genuine {S : Type} [Scalar S] (step : Step S) : Prop where
  place : IsPlace step.path
  rule_mem : step.rule ∈ step.stage.rules
  applied : ∃ σ, step.before.matchAgainst step.rule.pattern = .ok σ ∧
    step.after = step.rule.apply σ
  changed : (step.after == step.before) = false

namespace Canonical

variable {S α β : Type} {inv : Journal S → Prop}

/-- The part `m` of a run keeps `inv`, also where it runs out of fuel, and its result satisfies
`post`. -/
def Records (inv : Journal S → Prop) (m : Running S α) (post : α → Prop) : Prop :=
  ∀ j, inv j → inv (after m j) ∧ ∀ a k, m j = .ok a k → post a

namespace Records

variable {m : Running S α} {p : α → Prop} {q : β → Prop}

theorem pure {a : α} (h : p a) : Records inv (Pure.pure a : Running S α) p := by
  intro j hj
  refine ⟨hj, fun b k hb => ?_⟩
  cases hb
  exact h

theorem outOfFuel : Records inv (throw .outOfFuel : Running S α) p :=
  fun _ hj => ⟨hj, nofun⟩

theorem getting : Records inv (get : Running S (Journal S)) fun _ => True :=
  fun _ hj => ⟨hj, fun _ _ _ => trivial⟩

theorem modifying {f : Journal S → Journal S} (h : ∀ j, inv j → inv (f j)) :
    Records inv (modify f : Running S PUnit) fun _ => True :=
  fun j hj => ⟨h j hj, fun _ _ _ => trivial⟩

theorem bind {f : α → Running S β} (hm : Records inv m p) (hf : ∀ a, p a → Records inv (f a) q) :
    Records inv (m >>= f) q := by
  intro j hj
  obtain ⟨hafter, hpost⟩ := hm j hj
  cases h : m j with
  | ok a i =>
    rw [after_of_ok h] at hafter
    obtain ⟨hafter', hpost'⟩ := hf a (hpost a i h) i hafter
    rw [after_bind f h]
    refine ⟨hafter', fun b k hb => hpost' b k ?_⟩
    rwa [bind_ok f h] at hb
  | error e i =>
    rw [after_of_error h] at hafter
    rw [after_of_error (bind_error f h)]
    refine ⟨hafter, fun b k hb => ?_⟩
    rw [bind_error f h] at hb
    cases hb

theorem ite {m' : Running S α} (c : Prop) [Decidable c] (hm : Records inv m p)
    (hm' : Records inv m' p) : Records inv (if c then m else m') p := by
  split
  · exact hm
  · exact hm'

theorem congr {m' : Running S α} {j : Journal S} (h : m j = m' j)
    (hm' : inv (after m' j) ∧ ∀ a k, m' j = .ok a k → p a) :
    inv (after m j) ∧ ∀ a k, m j = .ok a k → p a := by
  rw [after_congr h, h]
  exact hm'

end Records

variable [Scalar S]

/-- Every step of the journal is genuine, of a node with `Q`, and what it has remembered as settled
has `Q`. -/
structure Logged (Q : Expr S → Prop) (j : Journal S) : Prop where
  steps : ∀ step ∈ j.steps.toList, step.Genuine ∧ Q step.before
  memo : ∀ p ∈ j.memo, Q p.2

variable {Q : Expr S → Prop} {options : Options} {stage : Stage} {path : List Nat}
  {visit : List Nat → Expr S → Running S (Expr S)}

theorem Logged.recall {j : Journal S} (hj : Logged Q j) {e r : Expr S} (h : j.recall? e = some r) :
    Q r := by
  obtain ⟨p, hp, rfl⟩ := Option.map_eq_some_iff.1 h
  exact hj.memo p (List.mem_of_find?_eq_some hp)

theorem Logged.remember {j : Journal S} (hj : Logged Q j) {r : Expr S} (hr : Q r) (e : Expr S) :
    Logged Q (j.remember e r) := by
  refine ⟨hj.steps, fun p hp => ?_⟩
  simp only [Journal.remember, List.mem_cons] at hp
  rcases hp with rfl | rfl | hp
  · exact hr
  · exact hr
  · exact hj.memo p hp

theorem records_spend {step : Step S} (hstep : step.Genuine ∧ Q step.before) :
    Records (Logged Q) (spend options step) fun _ => True := by
  intro j hj
  refine ⟨?_, fun _ _ _ => trivial⟩
  cases hb : options.budget.any (· ≤ j.steps.size) with
  | true =>
    rw [after_of_ok (spend_of_spent hb)]
    exact ⟨hj.steps, hj.memo⟩
  | false =>
    rw [after_of_ok (spend_of_left hb)]
    refine ⟨fun s hs => ?_, hj.memo⟩
    rw [Array.toList_push, List.mem_append, List.mem_singleton] at hs
    rcases hs with hs | rfl
    · exact hj.steps s hs
    · exact hstep

namespace Records

/-- The nodes below a place are visited at places. -/
theorem rebuild (hv : ∀ path, IsPlace path → ∀ e, Records inv (visit path e) Q)
    (hpath : IsPlace path) (e : Expr S) :
    Records inv (rebuild visit path e) fun r => Rebuilt (fun _ a => Q a) e r := by
  have h1 : ∀ e, Records inv (visit (path ++ [1]) e) Q := hv _ (hpath.operand (.inl rfl))
  have h2 : ∀ e, Records inv (visit (path ++ [2]) e) Q := hv _ (hpath.operand (.inr rfl))
  cases e with
  | var name => exact .pure (.var name)
  | scalarVar name => exact .pure (.scalarVar name)
  | literal x => exact .pure (.literal x)
  | null => exact .pure .null
  | differential a => exact (h1 a).bind fun _ ha => .pure (.differential ha)
  | trace a => exact (h1 a).bind fun _ ha => .pure (.trace ha)
  | transpose a => exact (h1 a).bind fun _ ha => .pure (.transpose ha)
  | add a b => exact (h1 a).bind fun _ ha => (h2 b).bind fun _ hb => .pure (.add ha hb)
  | sub a b => exact (h1 a).bind fun _ ha => (h2 b).bind fun _ hb => .pure (.sub ha hb)
  | scale a b => exact (h1 a).bind fun _ ha => (h2 b).bind fun _ hb => .pure (.scale ha hb)
  | matMul a b => exact (h1 a).bind fun _ ha => (h2 b).bind fun _ hb => .pure (.matMul ha hb)

theorem settleOperands (hQ : ∀ e r, Rebuilt (fun _ a => Q a) e r → Q r)
    (hv : ∀ path, IsPlace path → ∀ e, Records inv (visit path e) Q) (hpath : IsPlace path)
    (fuel : Nat) (seen : List (Expr S)) (e : Expr S) :
    Records inv (settleOperands visit path fuel seen e) Q := by
  induction fuel generalizing seen e with
  | zero => exact .outOfFuel
  | succ fuel ih =>
    exact (Records.rebuild hv hpath e).bind fun next hnext => getting.bind fun _ _ =>
      .ite _ (.pure (hQ e next hnext)) (ih (next :: seen) next)

/-- The step of a chosen rule is genuine. -/
theorem applyRules {operands : Expr S → Running S (Expr S)}
    (hop : ∀ e, Records (Logged Q) (operands e) Q) (hpath : IsPlace path) (fuel : Nat)
    (seen : List (Expr S)) (previous : Option (Expr S)) {e : Expr S} (he : Q e) :
    Records (Logged Q)
      (applyRules options stage stage.rules operands path fuel seen previous e) Q := by
  induction fuel generalizing seen previous e with
  | zero => exact .outOfFuel
  | succ fuel ih =>
    cases hc : choose stage.rules seen previous e with
    | none =>
      rw [applyRules_none hc]
      exact .pure he
    | some m =>
      obtain ⟨hm, hne, -⟩ := mem_of_choose hc
      obtain ⟨hrule, hmatch⟩ := mem_ruleMatches hm
      rw [applyRules_some hc]
      refine getting.bind fun _ _ => .ite _ (.pure he) ?_
      refine (records_spend ⟨⟨hpath, hrule, ⟨_, hmatch, rfl⟩, hne⟩, he⟩).bind fun allowed _ => ?_
      exact .ite _ ((hop m.output).bind fun next hnext => .ite _ (.pure hnext)
        (ih _ _ hnext)) (.pure he)

theorem settle (hQ : ∀ e r, Rebuilt (fun _ a => Q a) e r → Q r) (fuel : Nat)
    (hpath : IsPlace path) (e : Expr S) :
    Records (Logged Q) (settle options stage stage.rules fuel path e) Q := by
  induction fuel generalizing path e with
  | zero => exact .outOfFuel
  | succ fuel ih =>
    intro j hj
    cases hs : if options.memoize = true then j.recall? e else none with
    | some settled =>
      refine congr (settle_of_recalled hs) (Records.pure (p := Q) ?_ j hj)
      split at hs
      · exact hj.recall hs
      · cases hs
    | none =>
      have hop : ∀ x, Records (Logged Q)
          (Canonical.settleOperands (Canonical.settle options stage stage.rules fuel) path fuel [x]
            x) Q :=
        fun x => .settleOperands hQ (fun _ hp => ih hp) hpath fuel [x] x
      have hnode : Records (Logged Q) (settleNode options stage stage.rules
          (Canonical.settle options stage stage.rules fuel) path fuel e) Q :=
        (hop e).bind fun start hstart => .applyRules hop hpath fuel [start] none hstart
      refine congr (settle_of_fresh hs) ((hnode.bind fun settled hsettled => ?_) j hj)
      refine (modifying fun k hk => ?_).bind fun _ _ => .pure hsettled
      split
      · exact hk.remember hsettled e
      · exact hk

theorem runStage (hQ : ∀ e r, Rebuilt (fun _ a => Q a) e r → Q r) (fuel : Nat) (e : Expr S) :
    Records (Logged Q) (runStage options fuel stage e) Q :=
  (modifying fun _ hj => ⟨hj.steps, nofun⟩).bind fun _ _ => .settle hQ fuel isPlace_root e

theorem rounds (hQ : ∀ e r, Rebuilt (fun _ a => Q a) e r → Q r) (fuel turns : Nat)
    (seen : List (Expr S)) (e : Expr S) :
    Records (Logged Q) (rounds options fuel turns seen e) Q := by
  induction turns generalizing seen e with
  | zero => exact .outOfFuel
  | succ turns ih =>
    have hstages : Records (Logged Q) (runStages options fuel e) Q := by
      rw [runStages_eq]
      exact (runStage hQ fuel e).bind fun a _ => (runStage hQ fuel a).bind fun b _ =>
        runStage hQ fuel b
    exact hstages.bind fun next hnext => getting.bind fun _ _ =>
      .ite _ (.pure hnext) (ih (next :: seen) next)

end Records

/-- Every step of a run is genuine, also of one that ends without a result. The node it changes has
what building a node over settled operands ensures. -/
theorem genuine_of_mem_run (hQ : ∀ e r, Rebuilt (fun _ a => Q a) e r → Q r) {fuel : Nat}
    {e : Expr S} {step : Step S} (h : step ∈ (run options fuel e).steps) :
    step.Genuine ∧ Q step.before := by
  rw [steps_run] at h
  have hstart : Logged Q ({} : Journal S) := ⟨nofun, nofun⟩
  exact (Records.rounds hQ fuel fuel [e] e {} hstart).1.steps step h

end Canonical

end TraceCalculus
