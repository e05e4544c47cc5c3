import TraceCalculus.Canonical.Run

/-! # Fuel

What a part of a run ends with does not depend on the fuel it was given, as long as that sufficed
(`Canonical.run_fuel`). A part prolongs another if it ends alike wherever the other one ends
(`Canonical.Prolongs`); every loop prolongs itself with less fuel, and with operands that it
prolongs.

So to show that a part ends it is enough to find fuel for each of its own parts, and to take the
largest (`Canonical.Ends.bind`).
-/

set_option autoImplicit false

namespace TraceCalculus.Canonical

variable {S α β : Type}

/-- Where `m` ends, `m'` ends alike. -/
def Prolongs (m m' : Running S α) : Prop := ∀ j a k, m j = .ok a k → m' j = .ok a k

theorem prolongs_self (m : Running S α) : Prolongs m m := fun _ _ _ h => h

theorem prolongs_outOfFuel (m : Running S α) : Prolongs (throw .outOfFuel) m :=
  fun _ _ _ h => by cases h

theorem bind_eq_ok {m : Running S α} {f : α → Running S β} {j k : Journal S} {b : β}
    (h : (m >>= f) j = .ok b k) : ∃ a i, m j = .ok a i ∧ f a i = .ok b k := by
  change EStateM.bind m f j = .ok b k at h
  unfold EStateM.bind at h
  split at h
  case h_1 a i heq => exact ⟨a, i, heq, h⟩
  case h_2 => cases h

theorem bind_ok {m : Running S α} (f : α → Running S β) {j i : Journal S} {a : α}
    (h : m j = .ok a i) : (m >>= f) j = f a i := by
  change EStateM.bind m f j = _
  unfold EStateM.bind
  rw [h]

theorem Prolongs.bind {m m' : Running S α} {f f' : α → Running S β} (hm : Prolongs m m')
    (hf : ∀ a, Prolongs (f a) (f' a)) : Prolongs (m >>= f) (m' >>= f') := by
  intro j b k h
  obtain ⟨a, i, ha, hb⟩ := bind_eq_ok h
  rw [bind_ok f' (hm j a i ha)]
  exact hf a i b k hb

theorem Prolongs.ite {m m' : Running S α} (c : Prop) [Decidable c] (r : Running S α)
    (h : Prolongs m m') : Prolongs (if c then r else m) (if c then r else m') := by
  split
  · exact prolongs_self r
  · exact h

/-! ## Enough fuel -/

/-- More fuel makes no difference to what has ended. -/
def Rising (m : Nat → Running S α) : Prop := ∀ F F', F ≤ F' → Prolongs (m F) (m F')

/-- With enough fuel `m` ends, keeps `inv`, and its result satisfies `p`. -/
def Ends (inv : Journal S → Prop) (m : Nat → Running S α) (p : α → Prop) : Prop :=
  ∀ j, inv j → ∃ F a k, m F j = .ok a k ∧ inv k ∧ p a

section Basic

variable {inv : Journal S → Prop} {m : Nat → Running S α} {f : Nat → α → Running S β}
  {p q : α → Prop} {r : β → Prop}

theorem rising_const (m : Running S α) : Rising fun _ => m := fun _ _ _ => prolongs_self m

theorem Rising.bind (hm : Rising m) (hf : ∀ a, Rising fun F => f F a) :
    Rising fun F => m F >>= f F :=
  fun F F' h => (hm F F' h).bind fun a => hf a F F' h

/-- Two parts end one after the other with the larger fuel of the two. -/
theorem Rising.bind_ok (hm : Rising m) (hf : ∀ a, Rising fun F => f F a) {F F' : Nat}
    {j i k : Journal S} {a : α} {b : β} (h : m F j = .ok a i) (h' : f F' a i = .ok b k) :
    (m (max F F') >>= f (max F F')) j = .ok b k := by
  rw [Canonical.bind_ok _ (hm F _ (Nat.le_max_left F F') j a i h)]
  exact hf a F' _ (Nat.le_max_right F F') i b k h'

theorem ends_pure {a : α} (h : p a) : Ends inv (fun _ => (pure a : Running S α)) p :=
  fun j hj => ⟨0, a, j, rfl, hj, h⟩

theorem Rising.ite (c : Prop) [Decidable c] (r : Running S α) (h : Rising m) :
    Rising fun F => if c then r else m F :=
  fun F F' hF => .ite c r (h F F' hF)

/-- A family with more fuel throughout. -/
theorem Rising.succ (h : Rising m) : Rising fun F => m (F + 1) :=
  fun F F' hF => h (F + 1) (F' + 1) (Nat.succ_le_succ hF)

theorem Ends.bind (hm : Ends inv m p) (hmr : Rising m) (hfr : ∀ a, Rising fun F => f F a)
    (hf : ∀ a, p a → Ends inv (fun F => f F a) r) : Ends inv (fun F => m F >>= f F) r := by
  intro j hj
  obtain ⟨F, a, i, hm, hi, ha⟩ := hm j hj
  obtain ⟨F', b, k, hf, hk, hb⟩ := hf a ha i hi
  exact ⟨max F F', b, k, hmr.bind_ok hfr hm hf, hk, hb⟩

theorem ends_get : Ends inv (fun _ => (get : Running S (Journal S))) inv :=
  fun j hj => ⟨0, j, j, rfl, hj, hj⟩

/-- The fuel may start anywhere. -/
theorem Ends.shift (hm : Ends inv (fun F => m (F + 1)) p) : Ends inv m p := by
  intro j hj
  obtain ⟨F, a, k, heq, hk, ha⟩ := hm j hj
  exact ⟨F + 1, a, k, heq, hk, ha⟩

theorem Ends.prolong {m' : Nat → Running S α} (hm : Ends inv m p)
    (h : ∀ F, Prolongs (m F) (m' F)) : Ends inv m' p := by
  intro j hj
  obtain ⟨F, a, k, heq, hk, ha⟩ := hm j hj
  exact ⟨F, a, k, h F j a k heq, hk, ha⟩

theorem Ends.mono (hm : Ends inv m p) (h : ∀ a, p a → q a) : Ends inv m q := by
  intro j hj
  obtain ⟨F, a, k, heq, hk, ha⟩ := hm j hj
  exact ⟨F, a, k, heq, hk, h a ha⟩

end Basic

variable [Scalar S]

/-! ## Loops -/

section Loops

variable {visit visit' : List Nat → Expr S → Running S (Expr S)} {fuel fuel' : Nat}

theorem Prolongs.rebuild (hv : ∀ path e, Prolongs (visit path e) (visit' path e)) (path : List Nat)
    (e : Expr S) : Prolongs (rebuild visit path e) (rebuild visit' path e) := by
  cases e with
  | var | scalarVar | literal | null => exact prolongs_self _
  | differential | trace | transpose => exact (hv _ _).bind fun _ => prolongs_self _
  | add | sub | scale | matMul =>
    exact (hv _ _).bind fun _ => (hv _ _).bind fun _ => prolongs_self _

theorem Prolongs.settleOperands (hv : ∀ path e, Prolongs (visit path e) (visit' path e))
    (hf : fuel ≤ fuel') (path : List Nat) (seen : List (Expr S)) (e : Expr S) :
    Prolongs (settleOperands visit path fuel seen e) (settleOperands visit' path fuel' seen e) := by
  induction fuel generalizing fuel' seen e with
  | zero => exact prolongs_outOfFuel _
  | succ fuel ih =>
    cases fuel' with
    | zero => exact absurd hf (Nat.not_succ_le_zero fuel)
    | succ fuel' =>
      exact (Prolongs.rebuild hv path e).bind fun next => (prolongs_self _).bind fun _ =>
        .ite _ _ (ih (Nat.le_of_succ_le_succ hf) (next :: seen) next)

omit [Scalar S] in
theorem spend_of_spent {options : Options} {step : Step S} {j : Journal S}
    (h : options.budget.any (· ≤ j.steps.size) = true) :
    spend options step j = .ok false { j with exhausted := true } := by
  unfold spend
  change (if options.budget.any (· ≤ j.steps.size) = true then _ else _ : Running S Bool) j = _
  rw [if_pos h]
  rfl

omit [Scalar S] in
theorem spend_of_left {options : Options} {step : Step S} {j : Journal S}
    (h : options.budget.any (· ≤ j.steps.size) = false) :
    spend options step j = .ok true { j with steps := j.steps.push step } := by
  unfold spend
  change (if options.budget.any (· ≤ j.steps.size) = true then _ else _ : Running S Bool) j = _
  rw [h]
  rfl

section ApplyRules

variable {options : Options} {stage : Stage} {rules : List (Rule S)}
  {operands : Expr S → Running S (Expr S)} {path : List Nat} {seen : List (Expr S)}
  {previous : Option (Expr S)} {e : Expr S}

theorem applyRules_none (h : choose rules seen previous e = none) :
    applyRules options stage rules operands path (fuel + 1) seen previous e = pure e := by
  funext j
  have hget : (get : Running S (Journal S)) j = .ok j j := rfl
  rw [applyRules, h, bind_ok _ hget]
  split
  · rfl
  · rfl

theorem applyRules_some {m : RuleMatch S} (h : choose rules seen previous e = some m) :
    applyRules options stage rules operands path (fuel + 1) seen previous e = (do
      let journal ← get
      if journal.exhausted then return e
      else
        let allowed ← spend options ⟨stage, path, m.rule, e, m.output⟩
        if allowed then
          let next ← operands m.output
          if isSeen seen next then return next
          else
            applyRules options stage rules operands path fuel (next :: seen)
              (some m.rule.replacement) next
        else return e) := by
  rw [applyRules, h]

end ApplyRules

theorem Prolongs.applyRules {options : Options} {stage : Stage} {rules : List (Rule S)}
    {operands operands' : Expr S → Running S (Expr S)}
    (hop : ∀ e, Prolongs (operands e) (operands' e)) (hf : fuel ≤ fuel') (path : List Nat)
    (seen : List (Expr S)) (previous : Option (Expr S)) (e : Expr S) :
    Prolongs (applyRules options stage rules operands path fuel seen previous e)
      (applyRules options stage rules operands' path fuel' seen previous e) := by
  induction fuel generalizing fuel' seen previous e with
  | zero => exact prolongs_outOfFuel _
  | succ fuel ih =>
    cases fuel' with
    | zero => exact absurd hf (Nat.not_succ_le_zero fuel)
    | succ fuel' =>
      cases hc : choose rules seen previous e with
      | none =>
        rw [applyRules_none hc, applyRules_none hc]
        exact prolongs_self _
      | some m =>
        rw [applyRules_some hc, applyRules_some hc]
        refine (prolongs_self _).bind fun j => .ite _ _ ((prolongs_self _).bind fun allowed => ?_)
        cases allowed with
        | false => exact prolongs_self _
        | true =>
          exact (hop m.output).bind fun next =>
            .ite _ _ (ih (Nat.le_of_succ_le_succ hf) (next :: seen) _ next)

end Loops

section Settle

variable {options : Options} {stage : Stage} {rules : List (Rule S)} {fuel fuel' : Nat}

/-- Settling a node, with `visit` for its operands: the operands first, then the rules. -/
def settleNode (options : Options) (stage : Stage) (rules : List (Rule S))
    (visit : List Nat → Expr S → Running S (Expr S)) (path : List Nat) (fuel : Nat) (e : Expr S) :
    Running S (Expr S) := do
  let operands := fun e => settleOperands visit path fuel [e] e
  let start ← operands e
  applyRules options stage rules operands path fuel [start] none start

theorem settle_of_recalled {path : List Nat} {e r : Expr S} {j : Journal S}
    (h : (if options.memoize then j.recall? e else none) = some r) :
    settle options stage rules (fuel + 1) path e j = .ok r j := by
  have hget : (get : Running S (Journal S)) j = .ok j j := rfl
  rw [settle, bind_ok _ hget, h]
  rfl

theorem settle_of_fresh {path : List Nat} {e : Expr S} {j : Journal S}
    (h : (if options.memoize then j.recall? e else none) = none) :
    settle options stage rules (fuel + 1) path e j =
      (settleNode options stage rules (settle options stage rules fuel) path fuel e
        >>= fun settled => do
          modify fun journal =>
            if options.memoize && !journal.exhausted then journal.remember e settled else journal
          return settled) j := by
  have hget : (get : Running S (Journal S)) j = .ok j j := rfl
  rw [settle, bind_ok _ hget, h]
  simp only [settleNode, bind_assoc]

theorem Prolongs.settleNode {visit visit' : List Nat → Expr S → Running S (Expr S)}
    (hv : ∀ path e, Prolongs (visit path e) (visit' path e)) (hf : fuel ≤ fuel') (path : List Nat)
    (e : Expr S) :
    Prolongs (settleNode options stage rules visit path fuel e)
      (settleNode options stage rules visit' path fuel' e) :=
  (Prolongs.settleOperands hv hf path [e] e).bind fun start =>
    .applyRules (fun x => .settleOperands hv hf path [x] x) hf path [start] none start

theorem prolongs_settle (hf : fuel ≤ fuel') (path : List Nat) (e : Expr S) :
    Prolongs (settle options stage rules fuel path e)
      (settle options stage rules fuel' path e) := by
  induction fuel generalizing fuel' path e with
  | zero => exact prolongs_outOfFuel _
  | succ fuel ih =>
    cases fuel' with
    | zero => exact absurd hf (Nat.not_succ_le_zero fuel)
    | succ fuel' =>
      intro j r k hr
      cases hs : if options.memoize = true then j.recall? e else none with
      | some settled => rwa [settle_of_recalled hs] at hr ⊢
      | none =>
        rw [settle_of_fresh hs] at hr ⊢
        have hf := Nat.le_of_succ_le_succ hf
        exact (Prolongs.settleNode (fun path e => ih hf path e) hf path e).bind
          (fun settled => prolongs_self _) j r k hr

theorem prolongs_runStage (hf : fuel ≤ fuel') (e : Expr S) :
    Prolongs (runStage options fuel stage e) (runStage options fuel' stage e) :=
  (prolongs_self _).bind fun _ => prolongs_settle hf [1] e

theorem runStages_eq (options : Options) (fuel : Nat) (e : Expr S) :
    runStages options fuel e = (do
      let a ← runStage options fuel .isolate e
      let b ← runStage options fuel .normalize a
      runStage options fuel .collect b) := by
  simp [runStages, Stage.all]

theorem prolongs_runStages (hf : fuel ≤ fuel') (e : Expr S) :
    Prolongs (runStages options fuel e) (runStages options fuel' e) := by
  rw [runStages_eq, runStages_eq]
  exact (prolongs_runStage hf e).bind fun a =>
    (prolongs_runStage hf a).bind fun b => prolongs_runStage hf b

theorem prolongs_rounds (hf : fuel ≤ fuel') {turns turns' : Nat} (ht : turns ≤ turns')
    (seen : List (Expr S)) (e : Expr S) :
    Prolongs (rounds options fuel turns seen e) (rounds options fuel' turns' seen e) := by
  induction turns generalizing turns' seen e with
  | zero => exact prolongs_outOfFuel _
  | succ turns ih =>
    cases turns' with
    | zero => exact absurd ht (Nat.not_succ_le_zero turns)
    | succ turns' =>
      exact (prolongs_runStages hf e).bind fun next => (prolongs_self _).bind fun _ =>
        .ite _ _ (ih (Nat.le_of_succ_le_succ ht) (next :: seen) next)

end Settle

/-- A run that is over is the same with more fuel. -/
theorem run_fuel {options : Options} {fuel fuel' : Nat} {e : Expr S} (hf : fuel ≤ fuel')
    (h : (run options fuel e).outcome ≠ .outOfFuel) :
    run options fuel' e = run options fuel e := by
  unfold run at h ⊢
  cases hr : rounds options fuel fuel [e] e {} with
  | error _ journal =>
    rw [hr] at h
    exact absurd rfl h
  | ok result journal => rw [prolongs_rounds hf hf [e] e {} result journal hr]

/-! ## Parts that end -/

section Ends

variable {inv : Journal S → Prop} {options : Options} {stage : Stage} {rules : List (Rule S)}
  {visit : Nat → List Nat → Expr S → Running S (Expr S)}

theorem Rising.rebuild (hr : ∀ path e, Rising fun F => visit F path e) (path : List Nat)
    (e : Expr S) : Rising fun F => rebuild (visit F) path e :=
  fun F F' hF => .rebuild (fun path e => hr path e F F' hF) path e

theorem Rising.settleOperands (hr : ∀ path e, Rising fun F => visit F path e) (path : List Nat)
    (seen : List (Expr S)) (e : Expr S) : Rising fun F => settleOperands (visit F) path F seen e :=
  fun F F' hF => .settleOperands (fun path e => hr path e F F' hF) hF path seen e

theorem Rising.applyRules {operands : Nat → Expr S → Running S (Expr S)}
    (hr : ∀ e, Rising fun F => operands F e) (path : List Nat) (seen : List (Expr S))
    (previous : Option (Expr S)) (e : Expr S) :
    Rising fun F => applyRules options stage rules (operands F) path F seen previous e :=
  fun F F' hF => .applyRules (fun e => hr e F F' hF) hF path seen previous e

theorem rising_settle (path : List Nat) (e : Expr S) :
    Rising fun F => settle options stage rules F path e :=
  fun _ _ hF => prolongs_settle hF path e

theorem rising_runStage (e : Expr S) : Rising fun F => runStage options F stage e :=
  fun _ _ hF => prolongs_runStage hF e

theorem rising_runStages (e : Expr S) : Rising fun F => runStages options F e :=
  fun _ _ hF => prolongs_runStages hF e

theorem rising_rounds (seen : List (Expr S)) (e : Expr S) :
    Rising fun F => rounds options F F seen e :=
  fun _ _ hF => prolongs_rounds hF hF seen e

omit [Scalar S] in
theorem size_lt_of_mem_children {a e : Expr S} (ha : a ∈ e.children) : a.size < e.size := by
  cases e <;> simp only [Expr.children, List.mem_cons, List.not_mem_nil, or_false] at ha <;>
    simp only [Expr.size]
  case differential | trace | transpose => subst ha; omega
  case add | sub | scale | matMul => rcases ha with rfl | rfl <;> omega

theorem Ends.rebuild (hr : ∀ path e, Rising fun F => visit F path e) {e : Expr S}
    (hv : ∀ a ∈ e.children, ∀ path, Ends inv (fun F => visit F path a) fun _ => True)
    (path : List Nat) : Ends inv (fun F => rebuild (visit F) path e) fun _ => True := by
  have hconst : ∀ {a : Expr S}, Ends inv (fun _ => (pure a : Running S (Expr S))) fun _ => True :=
    ends_pure trivial
  cases e with
  | var | scalarVar | literal | null => exact hconst
  | differential a | trace a | transpose a =>
    exact (hv a (.head _) (path ++ [1])).bind (hr _ _) (fun _ => rising_const _) fun _ _ => hconst
  | add a b | sub a b | scale a b | matMul a b =>
    exact (hv a (.head _) (path ++ [1])).bind (hr _ _)
      (fun _ => (hr _ _).bind fun _ => rising_const _) fun _ _ =>
        (hv b (.tail _ (.head _)) (path ++ [2])).bind (hr _ _) (fun _ => rising_const _)
          fun _ _ => hconst

/-- The loop over the operands ends, if the first pass does and all that comes after a change. -/
theorem Ends.settleOperands (hr : ∀ path e, Rising fun F => visit F path e) {path : List Nat}
    {e : Expr S} {p q : Expr S → Prop} {seen : List (Expr S)}
    (hpass : Ends inv (fun F => Canonical.rebuild (visit F) path e) p)
    (hexit : ∀ next j, inv j → p next →
      (next == e) = true ∨ j.exhausted = true ∨ isSeen seen next = true → q next)
    (hrest : ∀ next, p next → (next == e) = false → isSeen seen next = false →
      Ends inv (fun F => Canonical.settleOperands (visit F) path F (next :: seen) next) q) :
    Ends inv (fun F => Canonical.settleOperands (visit F) path F seen e) q := by
  have hrising : ∀ next, Rising fun F =>
      Canonical.settleOperands (visit (F + 1)) path F (next :: seen) next :=
    fun next F F' hF => .settleOperands (fun path e => hr path e _ _ (Nat.succ_le_succ hF)) hF path
      _ next
  refine Ends.shift (Ends.bind (f := fun F next => do
      if next == e || (← get).exhausted || isSeen seen next then return next
      else Canonical.settleOperands (visit (F + 1)) path F (next :: seen) next)
    (hpass.prolong fun F => .rebuild (fun path e => hr path e F _ (Nat.le_succ F)) path e)
    (Rising.rebuild hr path e).succ
    (fun next => (rising_const _).bind fun _ => (hrising next).ite _ _) fun next hnext => ?_)
  refine ends_get.bind (rising_const _) (fun _ => (hrising next).ite _ _) fun j hj => ?_
  split
  case isTrue h =>
    simp only [Bool.or_eq_true, or_assoc] at h
    exact ends_pure (hexit next j hj hnext h)
  case isFalse hne =>
    simp only [Bool.or_eq_true, not_or, Bool.not_eq_true] at hne
    exact (hrest next hnext hne.1.1 hne.2).prolong fun F =>
      .settleOperands (fun path e => hr path e F _ (Nat.le_succ F)) (Nat.le_refl F) path _ next

omit [Scalar S] in
theorem ends_spend (hinv : ∀ j step, inv j → inv { j with steps := j.steps.push step })
    (hspent : ∀ j, options.budget.any (· ≤ j.steps.size) = true → inv j →
      inv { j with exhausted := true }) (step : Step S) :
    Ends inv (fun _ => spend options step) fun _ => True := by
  intro j hj
  cases hb : options.budget.any (· ≤ j.steps.size) with
  | true => exact ⟨0, _, _, spend_of_spent hb, hspent j hb hj, trivial⟩
  | false => exact ⟨0, _, _, spend_of_left hb, hinv j step hj, trivial⟩

/-- The loop over the rules ends, if what a chosen rule makes can be brought to an end. -/
theorem Ends.applyRules {operands : Nat → Expr S → Running S (Expr S)}
    (hr : ∀ e, Rising fun F => operands F e) {path : List Nat} {seen : List (Expr S)}
    {previous : Option (Expr S)} {e : Expr S} {p q : Expr S → Prop}
    (hstop : ∀ j, inv j → j.exhausted = true → q e)
    (hnone : choose rules seen previous e = none → q e)
    (hspend : ∀ step, Ends inv (fun _ => spend options step) fun allowed => allowed = true ∨ q e)
    (hop : ∀ m, choose rules seen previous e = some m → Ends inv (fun F => operands F m.output) p)
    (hexit : ∀ m next, choose rules seen previous e = some m → p next →
      isSeen seen next = true → q next)
    (hrest : ∀ m next, choose rules seen previous e = some m → p next →
      isSeen seen next = false → Ends inv (fun F => Canonical.applyRules options stage rules
        (operands F) path F (next :: seen) (some m.rule.replacement) next) q) :
    Ends inv (fun F => Canonical.applyRules options stage rules (operands F) path F seen previous e)
      q := by
  refine Ends.shift ?_
  cases hc : choose rules seen previous e with
  | none =>
    simp only [applyRules_none hc]
    exact ends_pure (hnone hc)
  | some m =>
    have hafter : ∀ next, Rising fun F => if isSeen seen next then pure next else
        Canonical.applyRules options stage rules (operands (F + 1)) path F (next :: seen)
          (some m.rule.replacement) next :=
      fun next => Rising.ite _ _ fun F F' hF => .applyRules
        (fun e => hr e _ _ (Nat.succ_le_succ hF)) hF path _ _ next
    -- the two rests of the loop rise with the fuel: after the operands, and after the budget
    have hallowed : ∀ allowed : Bool, Rising fun F => if allowed then (do
        let next ← operands (F + 1) m.output
        if isSeen seen next then return next
        else
          Canonical.applyRules options stage rules (operands (F + 1)) path F (next :: seen)
            (some m.rule.replacement) next) else pure e := by
      rintro (_ | _)
      · exact rising_const _
      · exact (hr m.output).succ.bind hafter
    simp only [applyRules_some hc]
    refine ends_get.bind (rising_const _)
      (fun j => ((rising_const _).bind hallowed).ite _ _) fun j hj => ?_
    split
    case isTrue h => exact ends_pure (hstop j hj h)
    refine (hspend _).bind (rising_const _) hallowed fun allowed h => ?_
    cases allowed with
    | false => exact ends_pure (h.resolve_left Bool.false_ne_true)
    | true =>
      refine ((hop m hc).prolong fun F => hr _ F _ (Nat.le_succ F)).bind (hr _).succ hafter
        fun next hnext => ?_
      split
      case isTrue h => exact ends_pure (hexit m next hc hnext h)
      case isFalse h =>
        exact (hrest m next hc hnext (by simpa using h)).prolong fun F =>
          .applyRules (fun e => hr e F _ (Nat.le_succ F)) (Nat.le_refl F) path _ _ next

/-- A node that is not remembered is settled by the loops. -/
theorem ends_settle {path : List Nat} {e : Expr S} {p q : Expr S → Prop}
    (hrecall : ∀ j r, inv j → options.memoize = true → j.recall? e = some r → q r)
    (hremember : ∀ j r, inv j → j.exhausted = false → p r → inv (j.remember e r))
    (hnode : Ends inv
      (fun F => settleNode options stage rules (settle options stage rules F) path F e) p)
    (hpq : ∀ r, p r → q r) : Ends inv (fun F => settle options stage rules F path e) q := by
  intro j hj
  cases hs : if options.memoize = true then j.recall? e else none with
  | some settled =>
    refine ⟨1, settled, j, settle_of_recalled hs, hj, ?_⟩
    split at hs
    case isTrue hm => exact hrecall j settled hj hm hs
    case isFalse => cases hs
  | none =>
    obtain ⟨F, r, k, hr, hk, hp⟩ := hnode j hj
    refine ⟨F + 1, r, if options.memoize && !k.exhausted then k.remember e r else k,
      (settle_of_fresh hs).trans ?_, ?_, hpq r hp⟩
    · rw [bind_ok _ hr]
      rfl
    · split
      case isTrue h =>
        simp only [Bool.and_eq_true, Bool.not_eq_true'] at h
        exact hremember k r hk h.2 hp
      case isFalse => exact hk

theorem Ends.runStages {e : Expr S} {A B C : Expr S → Prop}
    (hA : Ends inv (fun F => runStage options F .isolate e) A)
    (hB : ∀ a, A a → Ends inv (fun F => runStage options F .normalize a) B)
    (hC : ∀ b, B b → Ends inv (fun F => runStage options F .collect b) C) :
    Ends inv (fun F => Canonical.runStages options F e) C := by
  simp only [runStages_eq]
  exact hA.bind (rising_runStage e)
    (fun a => (rising_runStage a).bind rising_runStage) fun a ha =>
      (hB a ha).bind (rising_runStage a) rising_runStage hC

/-- The rounds end, if the first one does and all that comes after a change. -/
theorem Ends.rounds {e : Expr S} {p q : Expr S → Prop} {seen : List (Expr S)}
    (hround : Ends inv (fun F => Canonical.runStages options F e) p)
    (hexit : ∀ next j, inv j → p next →
      j.exhausted = true ∨ (next == e) = true ∨ isSeen seen next = true → q next)
    (hrest : ∀ next, p next → (next == e) = false → isSeen seen next = false →
      Ends inv (fun F => Canonical.rounds options F F (next :: seen) next) q) :
    Ends inv (fun F => Canonical.rounds options F F seen e) q := by
  have hrising : ∀ next, Rising fun F => Canonical.rounds options (F + 1) F (next :: seen) next :=
    fun next F F' hF => prolongs_rounds (Nat.succ_le_succ hF) hF _ next
  refine Ends.shift (Ends.bind (f := fun F next => do
      if (← get).exhausted || next == e || isSeen seen next then return next
      else Canonical.rounds options (F + 1) F (next :: seen) next)
    (hround.prolong fun F => prolongs_runStages (Nat.le_succ F) e) (rising_runStages e).succ
    (fun next => (rising_const _).bind fun _ => (hrising next).ite _ _) fun next hnext => ?_)
  refine ends_get.bind (rising_const _) (fun _ => (hrising next).ite _ _) fun j hj => ?_
  split
  case isTrue h =>
    simp only [Bool.or_eq_true, or_assoc] at h
    exact ends_pure (hexit next j hj hnext h)
  case isFalse hne =>
    simp only [Bool.or_eq_true, not_or, Bool.not_eq_true] at hne
    exact (hrest next hnext hne.1.2 hne.2).prolong fun F =>
      prolongs_rounds (Nat.le_succ F) (Nat.le_refl F) _ next

end Ends

end TraceCalculus.Canonical
