import TraceCalculus.Proofs.ExactScalar
import TraceCalculus.Proofs.Journals

/-! # A limited run is the start of the unlimited one

`Canonical.Limits n u b`: the part `b` of a run that may take `n` steps does what the part `u` of an
unlimited run does. As long as `u` takes no more than `n` steps, `b` ends alike, and where `u` takes
more, `b` ends with the budget spent and the first `n` steps of `u`, even if `u` itself never ends.

What is left to do when the budget is spent takes no steps and ends (`Canonical.Idles`): each loop is
left at once, and only the operands are visited once more. From there the induction over the loops
of the unlimited run gives the relation of whole runs (`Canonical.run_budget`).
-/

set_option autoImplicit false

namespace TraceCalculus.Canonical

variable {S α β : Type} {n : Nat} {memoize : Bool}

/-- A journal with the budget spent and the given steps. -/
def SpentWith (steps : Array (Step S)) (j : Journal S) : Prop :=
  j.exhausted = true ∧ j.steps = steps

/-- Once the budget of `n` steps is spent, `b` ends without a step. -/
def Idles (n : Nat) (b : Nat → Running S α) : Prop :=
  ∀ steps : Array (Step S), n ≤ steps.size → Ends (SpentWith steps) b fun _ => True

/-- With enough fuel `b` ends with the budget spent, by the first `n` steps in the journal `k`. -/
def Overspent (n : Nat) (b : Nat → Running S α) (j k : Journal S) : Prop :=
  ∃ F a i, b F j = .ok a i ∧ i.exhausted = true ∧ i.steps.toList = k.steps.toList.take n

/-- The part `b` of a run that may take `n` steps does what the part `u` of an unlimited one
does. -/
structure Limits (n : Nat) (memoize : Bool) (u : Running S α) (b : Nat → Running S α) : Prop where
  grows : Grows ⟨none, memoize⟩ u
  rising : Rising b
  idles : Idles n b
  within : ∀ {j a k}, j.exhausted = false → u j = .ok a k → k.steps.size ≤ n →
    ∃ F, b F j = .ok a k
  beyond : ∀ {j}, j.exhausted = false → j.steps.size ≤ n → n < (after u j).steps.size →
    Overspent n b j (after u j)

/-! ## Parts -/

section Basic

variable {u : Running S α} {b : Nat → Running S α} {f : α → Running S β}
  {g : Nat → α → Running S β}

theorem idles_pure (a : α) : Idles n (fun _ => (pure a : Running S α)) :=
  fun _ _ => ends_pure trivial

theorem Idles.bind (hb : Idles n b) (hr : Rising b) (hg : ∀ a, Idles n fun F => g F a)
    (hgr : ∀ a, Rising fun F => g F a) : Idles n fun F => b F >>= g F :=
  fun steps hs => (hb steps hs).bind hr hgr fun a _ => hg a steps hs

/-- Where a loop is left once the budget is spent, nothing is asked of the rest of it. -/
theorem idles_check {c : Bool → Bool} (hc : c true = true) (a : α) :
    Idles n (fun F => (do
      let journal ← get
      if c journal.exhausted then return a else b F : Running S α)) := by
  intro steps _ j hj
  refine ⟨0, a, j, ?_, hj, trivial⟩
  change (if c j.exhausted = true then pure a else b 0 : Running S α) j = _
  rw [hj.1, if_pos hc]
  rfl

theorem Idles.shift (h : Idles n fun F => b (F + 1)) : Idles n b :=
  fun steps hs => (h steps hs).shift

theorem Overspent.of_grown {j k k' : Journal S} (h : Overspent n b j k)
    (hk : k.steps.toList <+: k'.steps.toList) (hn : n ≤ k.steps.size) : Overspent n b j k' := by
  obtain ⟨F, a, i, hb, hi, hs⟩ := h
  obtain ⟨rest, hrest⟩ := hk
  refine ⟨F, a, i, hb, hi, ?_⟩
  rw [hs, ← hrest, List.take_append_of_le_length (by simpa using hn)]

/-- What follows takes no more steps. -/
theorem Overspent.bind {j k : Journal S} (h : Overspent n b j k) (hn : n ≤ k.steps.size)
    (hr : Rising b) (hg : ∀ a, Idles n fun F => g F a) (hgr : ∀ a, Rising fun F => g F a) :
    Overspent n (fun F => b F >>= g F) j k := by
  obtain ⟨F, a, i, hb, hi, hs⟩ := h
  have hin : n ≤ i.steps.size := by
    rw [← Array.length_toList, hs, List.length_take, Array.length_toList]
    exact Nat.le_min.2 ⟨Nat.le_refl n, hn⟩
  obtain ⟨F', c, i', hc, ⟨hi', hs'⟩, -⟩ := hg a i.steps hin i ⟨hi, rfl⟩
  exact ⟨max F F', c, i', hr.bind_ok hgr hb hc, hi', by rw [hs', hs]⟩

namespace Limits

theorem of_pure (a : α) : Limits n memoize (pure a : Running S α) fun _ => pure a where
  grows := grows_pure a
  rising := rising_const _
  idles := idles_pure a
  within := fun _ h _ => ⟨0, h⟩
  beyond := fun _ hj hn => absurd hj (Nat.not_le.2 hn)

theorem outOfFuel (hr : Rising b) (hi : Idles n b) :
    Limits n memoize (throw .outOfFuel : Running S α) b where
  grows := grows_outOfFuel
  rising := hr
  idles := hi
  within := fun _ h _ => by cases h
  beyond := fun _ hj hn => absurd hj (Nat.not_le.2 hn)

/-- The fuel may start anywhere. -/
theorem shift (hr : Rising b) (h : Limits n memoize u fun F => b (F + 1)) :
    Limits n memoize u b where
  grows := h.grows
  rising := hr
  idles := h.idles.shift
  within := fun hj hu hk =>
    let ⟨F, hb⟩ := h.within hj hu hk
    ⟨F + 1, hb⟩
  beyond := fun hj hs hn =>
    let ⟨F, rest⟩ := h.beyond hj hs hn
    ⟨F + 1, rest⟩

theorem prolong {b' : Nat → Running S α} (h : Limits n memoize u b)
    (hb : ∀ F, Prolongs (b F) (b' F)) (hr : Rising b') : Limits n memoize u b' where
  grows := h.grows
  rising := hr
  idles := fun steps hs => (h.idles steps hs).prolong hb
  within := fun hj hu hk =>
    let ⟨F, hF⟩ := h.within hj hu hk
    ⟨F, hb F _ _ _ hF⟩
  beyond := fun hj hs hn =>
    let ⟨F, a, i, hF, rest⟩ := h.beyond hj hs hn
    ⟨F, a, i, hb F _ _ _ hF, rest⟩

theorem succ (h : Limits n memoize u b) : Limits n memoize u fun F => b (F + 1) :=
  h.prolong (fun F => h.rising F _ (Nat.le_succ F)) h.rising.succ

theorem bind (hu : Limits n memoize u b) (hf : ∀ a, Limits n memoize (f a) fun F => g F a) :
    Limits n memoize (u >>= f) fun F => b F >>= g F where
  grows := hu.grows.bind fun a => (hf a).grows
  rising := hu.rising.bind fun a => (hf a).rising
  idles := hu.idles.bind hu.rising (fun a => (hf a).idles) fun a => (hf a).rising
  within := by
    intro j c k hj huf hk
    obtain ⟨a, i, hua, hfa⟩ := bind_eq_ok huf
    have hi := hu.grows.of_ok hua
    have hik := (hf a).grows.of_ok hfa
    obtain ⟨F, hF⟩ := hu.within hj hua (Nat.le_trans hik.size_le hk)
    obtain ⟨F', hF'⟩ := (hf a).within (hi.unspent rfl hj) hfa hk
    exact ⟨max F F', hu.rising.bind_ok (fun a => (hf a).rising) hF hF'⟩
  beyond := by
    intro j hj hjn hn
    have hspent : ∀ {k : Journal S}, Overspent n b j k → n < k.steps.size →
        Overspent n (fun F => b F >>= g F) j k :=
      fun h hk => h.bind (Nat.le_of_lt hk) hu.rising (fun a => (hf a).idles) fun a => (hf a).rising
    cases hua : u j with
    | error e k =>
      rw [after_of_error (bind_error f hua)] at hn ⊢
      rw [← after_of_error hua] at hn ⊢
      exact hspent (hu.beyond hj hjn hn) hn
    | ok a i =>
      have hi := hu.grows.of_ok hua
      rw [after_bind f hua] at hn ⊢
      -- either the first part is beyond the budget already, or the second one comes to be
      rcases Nat.lt_or_ge n i.steps.size with hin | hin
      · have hu' := hu.beyond hj hjn (by rwa [after_of_ok hua])
        rw [after_of_ok hua] at hu'
        exact (hspent hu' hin).of_grown ((hf a).grows i).steps (Nat.le_of_lt hin)
      · obtain ⟨F, hF⟩ := hu.within hj hua hin
        obtain ⟨F', c, k, hc, rest⟩ := (hf a).beyond (hi.unspent rfl hj) hin hn
        exact ⟨max F F', c, k, hu.rising.bind_ok (fun a => (hf a).rising) hF hc, rest⟩

/-- A loop that is left once the budget is spent. -/
theorem check {c : Bool → Bool} (hc : c true = true) (a : α) (h : Limits n memoize u b) :
    Limits n memoize
      (do
        let journal ← get
        if c journal.exhausted then return a else u)
      fun F => do
        let journal ← get
        if c journal.exhausted then return a else b F where
  grows := grows_get.bind fun _ => .ite _ (grows_pure a) h.grows
  rising := (rising_const _).bind fun _ => h.rising.ite _ _
  idles := idles_check hc a
  within := by
    intro j x k hj hu hk
    change (if c j.exhausted = true then pure a else u : Running S α) j = _ at hu
    change ∃ F, (if c j.exhausted = true then pure a else b F : Running S α) j = _
    rw [hj] at hu ⊢
    by_cases hcf : c false = true
    · simp only [hcf, if_true] at hu ⊢
      exact ⟨0, hu⟩
    · simp only [hcf] at hu ⊢
      exact h.within hj hu hk
  beyond := by
    intro j hj hjn hn
    change n < (after (if c j.exhausted = true then pure a else u : Running S α) j).steps.size at hn
    change Overspent n (fun F => if c j.exhausted = true then pure a else b F) j
      (after (if c j.exhausted = true then pure a else u : Running S α) j)
    rw [hj] at hn ⊢
    by_cases hcf : c false = true
    · rw [if_pos hcf] at hn
      exact absurd hjn (Nat.not_le.2 hn)
    · simp only [hcf] at hn ⊢
      exact h.beyond hj hjn hn

/-- Both runs change the journal alike. -/
theorem of_modify {f : Journal S → Journal S} (hf : ∀ j, Grown ⟨none, memoize⟩ j (f j))
    (hs : ∀ steps j, SpentWith steps j → SpentWith steps (f j))
    (hn : ∀ j, (f j).steps = j.steps) :
    Limits n memoize (modify f : Running S PUnit) fun _ => modify f where
  grows := grows_modify hf
  rising := rising_const _
  idles := fun steps _ j hj => ⟨0, ⟨⟩, f j, rfl, hs steps j hj, trivial⟩
  within := fun _ h _ => ⟨0, h⟩
  beyond := by
    intro j _ hjn hlt
    change n < (f j).steps.size at hlt
    rw [hn] at hlt
    exact absurd hjn (Nat.not_le.2 hlt)

/-- The step that is one too many is not recorded. -/
theorem of_spend (step : Step S) :
    Limits n memoize (spend ⟨none, memoize⟩ step) fun _ => spend ⟨some n, memoize⟩ step where
  grows := grows_spend step
  rising := rising_const _
  idles := by
    intro steps hs j hj
    refine ⟨0, false, _, spend_of_spent ?_, ⟨rfl, hj.2⟩, trivial⟩
    simpa [hj.2] using hs
  within := by
    intro j a k hj hu hk
    rw [spend_of_left rfl] at hu
    cases hu
    refine ⟨0, spend_of_left ?_⟩
    simp only [Array.size_push] at hk
    simpa using Nat.lt_of_succ_le hk
  beyond := by
    intro j hj hjn hn
    rw [after_of_ok (spend_of_left rfl)] at hn ⊢
    simp only [Array.size_push] at hn
    have heq : n = j.steps.size := Nat.le_antisymm (Nat.le_of_lt_succ hn) hjn
    refine ⟨0, false, _, spend_of_spent (by simp [heq]), rfl, ?_⟩
    simp [heq]

end Limits

end Basic

/-! ## Loops -/

variable [Scalar S] {stage : Stage} {rules : List (Rule S)}
  {visit : List Nat → Expr S → Running S (Expr S)}
  {limited : Nat → List Nat → Expr S → Running S (Expr S)}

theorem Idles.rebuild (hr : ∀ path e, Rising fun F => limited F path e) {e : Expr S}
    (hv : ∀ a ∈ e.children, ∀ path, Idles n fun F => limited F path a) (path : List Nat) :
    Idles n fun F => rebuild (limited F) path e :=
  fun steps hs => .rebuild hr (fun a ha path => hv a ha path steps hs) path

theorem Idles.settleOperands (hr : ∀ path e, Rising fun F => limited F path e) {e : Expr S}
    (hv : ∀ a ∈ e.children, ∀ path, Idles n fun F => limited F path a) (path : List Nat)
    (seen : List (Expr S)) : Idles n fun F => settleOperands (limited F) path F seen e := by
  have hrebuild : Idles n fun F => Canonical.rebuild (limited (F + 1)) path e :=
    fun steps hs => .prolong (Idles.rebuild hr hv path steps hs) fun F =>
      .rebuild (fun path e => hr path e F _ (Nat.le_succ F)) path e
  have hrest : ∀ next, Rising fun F =>
      Canonical.settleOperands (limited (F + 1)) path F (next :: seen) next :=
    fun next F F' hF => .settleOperands (fun path e => hr path e _ _ (Nat.succ_le_succ hF)) hF path
      _ next
  refine Idles.shift (hrebuild.bind (g := fun F next => do
    if next == e || (← get).exhausted || isSeen seen next then return next
      else Canonical.settleOperands (limited (F + 1)) path F (next :: seen) next)
    (Rising.rebuild hr path e).succ (fun next => ?_)
    fun next => (rising_const _).bind fun _ => (hrest next).ite _ _)
  exact idles_check (c := fun x => next == e || x || isSeen seen next) (by simp) next

theorem idles_applyRules {options : Options} {operands : Nat → Expr S → Running S (Expr S)}
    {path : List Nat} (seen : List (Expr S)) (previous : Option (Expr S)) (e : Expr S) :
    Idles n fun F => applyRules options stage rules (operands F) path F seen previous e := by
  refine Idles.shift ?_
  cases hc : choose rules seen previous e with
  | none =>
    simp only [applyRules_none hc]
    exact idles_pure e
  | some m =>
    simp only [applyRules_some hc]
    exact idles_check (c := id) rfl e

theorem Idles.settleNode {options : Options} (hr : ∀ path e, Rising fun F => limited F path e)
    {e : Expr S} (hv : ∀ a ∈ e.children, ∀ path, Idles n fun F => limited F path a)
    (path : List Nat) :
    Idles n fun F => settleNode options stage rules (limited F) path F e :=
  (Idles.settleOperands hr hv path [e]).bind (.settleOperands hr path [e] e)
    (fun start => idles_applyRules [start] none start)
    fun start => .applyRules (fun x => .settleOperands hr path [x] x) path [start] none start

/-- Visiting an expression once more is a recursion over it. -/
theorem idles_settle {options : Options} (path : List Nat) (e : Expr S) :
    Idles n fun F => settle options stage rules F path e := by
  induction hs : e.size using Nat.strongRecOn generalizing e path with
  | ind size ih =>
    intro steps hn
    refine ends_settle (p := fun _ => True) (fun _ _ _ _ _ => trivial) (fun j r hj hx _ => ?_)
      (Idles.settleNode rising_settle (fun a ha path =>
        ih _ (hs ▸ size_lt_of_mem_children ha) path a rfl) path steps hn) fun _ _ => trivial
    rw [hj.1] at hx
    cases hx

namespace Limits

theorem rebuild (hv : ∀ path e, Limits n memoize (visit path e) fun F => limited F path e)
    (path : List Nat) (e : Expr S) :
    Limits n memoize (rebuild visit path e) fun F => Canonical.rebuild (limited F) path e := by
  cases e with
  | var | scalarVar | literal | null => exact of_pure _
  | differential | trace | transpose => exact (hv _ _).bind fun _ => of_pure _
  | add | sub | scale | matMul =>
    exact (hv _ _).bind fun _ => (hv _ _).bind fun _ => of_pure _

theorem settleOperands (hv : ∀ path e, Limits n memoize (visit path e) fun F => limited F path e)
    (path : List Nat) (fuel : Nat) (seen : List (Expr S)) (e : Expr S) :
    Limits n memoize (settleOperands visit path fuel seen e) fun F =>
      Canonical.settleOperands (limited F) path F seen e := by
  have hr := fun path e => (hv path e).rising
  induction fuel generalizing limited seen e with
  | zero =>
    exact outOfFuel (.settleOperands hr path seen e)
      (.settleOperands hr (fun a _ path => (hv path a).idles) path seen)
  | succ fuel ih =>
    refine shift (.settleOperands hr path seen e) ?_
    have hv' : ∀ path e, Limits n memoize (visit path e) fun F => limited (F + 1) path e :=
      fun path e => (hv path e).succ
    refine (Limits.rebuild hv' path e).bind fun next => ?_
    exact check (c := fun x => next == e || x || isSeen seen next) (by simp) next
      (ih hv' (next :: seen) next (fun path e => (hv' path e).rising))

theorem applyRules {operands : Expr S → Running S (Expr S)}
    {limitedOperands : Nat → Expr S → Running S (Expr S)}
    (hop : ∀ e, Limits n memoize (operands e) fun F => limitedOperands F e) (path : List Nat)
    (fuel : Nat) (seen : List (Expr S)) (previous : Option (Expr S)) (e : Expr S) :
    Limits n memoize
      (applyRules ⟨none, memoize⟩ stage rules operands path fuel seen previous e) fun F =>
        Canonical.applyRules ⟨some n, memoize⟩ stage rules (limitedOperands F) path F seen previous
          e := by
  have hr : Rising fun F => Canonical.applyRules ⟨some n, memoize⟩ stage rules (limitedOperands F)
      path F seen previous e := .applyRules (fun e => (hop e).rising) path seen previous e
  induction fuel generalizing limitedOperands seen previous e with
  | zero => exact outOfFuel hr (idles_applyRules seen previous e)
  | succ fuel ih =>
    refine shift hr ?_
    cases hc : choose rules seen previous e with
    | none =>
      simp only [applyRules_none hc]
      exact of_pure e
    | some m =>
      simp only [applyRules_some hc]
      have hop' : ∀ e, Limits n memoize (operands e) fun F => limitedOperands (F + 1) e :=
        fun e => (hop e).succ
      refine check (c := id) rfl e ((of_spend _).bind fun allowed => ?_)
      cases allowed with
      | false => exact of_pure e
      | true =>
        refine (hop' m.output).bind fun next => ?_
        by_cases hs : isSeen seen next = true
        · simp only [hs, if_true]
          exact of_pure next
        · simp only [hs]
          exact ih hop' _ _ next (.applyRules (fun e => (hop' e).rising) path _ _ next)

theorem settleNode (hv : ∀ path e, Limits n memoize (visit path e) fun F => limited F path e)
    (path : List Nat) (fuel : Nat) (e : Expr S) :
    Limits n memoize (settleNode ⟨none, memoize⟩ stage rules visit path fuel e) fun F =>
      Canonical.settleNode ⟨some n, memoize⟩ stage rules (limited F) path F e :=
  (Limits.settleOperands hv path fuel [e] e).bind fun start =>
    .applyRules (fun x => .settleOperands hv path fuel [x] x) path fuel [start] none start

omit [Scalar S] in
theorem of_remember (e r : Expr S) :
    Limits n memoize
      (modify fun journal : Journal S =>
        if memoize && !journal.exhausted then journal.remember e r else journal)
      fun _ => modify fun journal =>
        if memoize && !journal.exhausted then journal.remember e r else journal := by
  have hgrows : Grows ⟨none, memoize⟩ (modify fun journal : Journal S =>
      if memoize && !journal.exhausted then journal.remember e r else journal) := grows_remember e r
  refine of_modify hgrows (fun steps j hj => ?_) fun j => ?_
  · rw [hj.1]
    simpa using hj
  · split
    · rfl
    · rfl

theorem of_settle (fuel : Nat) (path : List Nat) (e : Expr S) :
    Limits n memoize (settle ⟨none, memoize⟩ stage rules fuel path e) fun F =>
      settle ⟨some n, memoize⟩ stage rules F path e := by
  induction fuel generalizing path e with
  | zero => exact outOfFuel (rising_settle path e) (idles_settle path e)
  | succ fuel ih =>
    have hloops : Limits n memoize (Canonical.settleNode ⟨none, memoize⟩ stage rules _ path fuel e)
        _ := .settleNode ih path fuel e
    have hnode := hloops.bind fun settled => (of_remember e settled).bind fun _ => of_pure settled
    refine ⟨grows_settle _ path e, rising_settle path e, idles_settle path e,
      fun {j a k} hj hu hk => ?_, fun {j} hj hjn hn => ?_⟩
    · cases hs : if memoize = true then j.recall? e else none with
      | some settled =>
        rw [settle_of_recalled hs] at hu
        exact ⟨1, (settle_of_recalled hs).trans hu⟩
      | none =>
        rw [settle_of_fresh hs] at hu
        obtain ⟨F, hF⟩ := hnode.within hj hu hk
        exact ⟨F + 1, (settle_of_fresh hs).trans hF⟩
    · cases hs : if memoize = true then j.recall? e else none with
      | some settled =>
        rw [after_of_ok (settle_of_recalled hs)] at hn
        exact absurd hjn (Nat.not_le.2 hn)
      | none =>
        rw [after_congr (settle_of_fresh hs)] at hn ⊢
        obtain ⟨F, a, i, hF, rest⟩ := hnode.beyond hj hjn hn
        exact ⟨F + 1, a, i, (settle_of_fresh hs).trans hF, rest⟩

theorem of_runStage (fuel : Nat) (e : Expr S) :
    Limits n memoize (runStage ⟨none, memoize⟩ fuel stage e) fun F =>
      runStage ⟨some n, memoize⟩ F stage e := by
  have hclear : Limits n memoize
      (modify fun journal : Journal S => { journal with memo := [] }) fun _ =>
        modify fun journal => { journal with memo := [] } :=
    of_modify (fun _ => ⟨List.prefix_rfl, id, fun _ => id⟩) (fun _ _ h => h) fun _ => rfl
  exact hclear.bind fun _ => of_settle fuel [1] e

theorem of_runStages (fuel : Nat) (e : Expr S) :
    Limits n memoize (runStages ⟨none, memoize⟩ fuel e) fun F =>
      runStages ⟨some n, memoize⟩ F e := by
  simp only [runStages_eq]
  exact (of_runStage fuel e).bind fun a => (of_runStage fuel a).bind fun b => of_runStage fuel b

end Limits

theorem idles_rounds (seen : List (Expr S)) (e : Expr S) :
    Idles n fun F => rounds ⟨some n, memoize⟩ F F seen e := by
  have hstages : Limits n memoize (runStages ⟨none, memoize⟩ 0 e) fun F =>
      runStages ⟨some n, memoize⟩ (F + 1) e := (Limits.of_runStages 0 e).succ
  have hrest : ∀ next, Rising fun F =>
      rounds ⟨some n, memoize⟩ (F + 1) F (next :: seen) next :=
    fun next F F' hF => prolongs_rounds (Nat.succ_le_succ hF) hF _ next
  refine Idles.shift (hstages.idles.bind (g := fun F next => do
    if (← get).exhausted || next == e || isSeen seen next then return next
    else rounds ⟨some n, memoize⟩ (F + 1) F (next :: seen) next) hstages.rising (fun next => ?_)
    fun next => (rising_const _).bind fun _ => (hrest next).ite _ _)
  exact idles_check (c := fun x => x || next == e || isSeen seen next) rfl next

theorem Limits.of_rounds (fuel turns : Nat) (seen : List (Expr S)) (e : Expr S) :
    Limits n memoize (rounds ⟨none, memoize⟩ fuel turns seen e) fun F =>
      rounds ⟨some n, memoize⟩ F F seen e := by
  induction turns generalizing seen e with
  | zero => exact outOfFuel (rising_rounds seen e) (idles_rounds seen e)
  | succ turns ih =>
    refine shift (rising_rounds seen e) ?_
    refine (Limits.of_runStages fuel e).succ.bind fun next => ?_
    refine check (c := fun x => x || next == e || isSeen seen next) rfl next ?_
    exact (ih (next :: seen) next).prolong
      (fun F => prolongs_rounds (Nat.le_succ F) (Nat.le_refl F) _ next)
      fun F F' hF => prolongs_rounds (Nat.succ_le_succ hF) hF _ next

/-! ## Whole runs -/

/-- A run with a budget of `n` steps is the start of the unlimited run. If that one converges with at
most `n` steps, both end alike. If it takes more than `n` steps, whether it ends or not, the limited
run is exhausted and its steps are the first `n` steps of the unlimited one. -/
theorem run_budget (n : Nat) (memoize : Bool) (fuel : Nat) (e : Expr S) :
    (∀ r, (run ⟨none, memoize⟩ fuel e).outcome = .converged r →
      (run ⟨none, memoize⟩ fuel e).steps.length ≤ n →
        ∃ m, ∀ fuel' ≥ m, run ⟨some n, memoize⟩ fuel' e = run ⟨none, memoize⟩ fuel e) ∧
    (n < (run ⟨none, memoize⟩ fuel e).steps.length →
      ∃ m rest, ∀ fuel' ≥ m, run ⟨some n, memoize⟩ fuel' e =
        ⟨.exhausted ⟨n, rest⟩, (run ⟨none, memoize⟩ fuel e).steps.take n⟩) := by
  have hrounds : Limits n memoize (rounds ⟨none, memoize⟩ fuel fuel [e] e) fun F =>
      rounds ⟨some n, memoize⟩ F F [e] e := Limits.of_rounds fuel fuel [e] e
  refine ⟨fun r hr hn => ?_, fun hn => ?_⟩
  · obtain ⟨j, hj, hx⟩ := rounds_of_converged hr
    have hrun := run_of_ok hj
    rw [hrun] at hn ⊢
    obtain ⟨m, hm⟩ := hrounds.within rfl hj (by simpa using hn)
    refine ⟨m, fun fuel' hf => ?_⟩
    rw [run_of_ok (prolongs_rounds hf hf [e] e _ _ _ hm), hx]
    rfl
  · rw [steps_run, Array.length_toList] at hn
    obtain ⟨m, rest, i, hm, hx, hs⟩ := hrounds.beyond (j := {}) rfl (Nat.zero_le n) hn
    refine ⟨m, rest, fun fuel' hf => ?_⟩
    rw [run_of_ok (prolongs_rounds hf hf [e] e _ _ _ hm), hx, hs, steps_run]
    rfl

/-- Two traces of transposes, which take a step each. -/
def turnedTraces : Expr Int :=
  .sub (.trace (.transpose (.var "A"))) (.trace (.transpose (.var "B")))

theorem run_budget_turnedTraces :
    (∃ m, ∀ fuel ≥ m, run ⟨some 2, true⟩ fuel turnedTraces = run ⟨none, true⟩ 8 turnedTraces) ∧
      ∃ m rest, ∀ fuel ≥ m, run ⟨some 1, true⟩ fuel turnedTraces =
        ⟨.exhausted ⟨1, rest⟩, (run ⟨none, true⟩ 8 turnedTraces).steps.take 1⟩ := by
  have hlength : (run ⟨none, true⟩ 8 turnedTraces).steps.length = 2 := by decide +kernel
  have hconverged : ((run ⟨none, true⟩ 8 turnedTraces).outcome matches .converged _) = true := by
    decide +kernel
  refine ⟨?_, (run_budget 1 true 8 turnedTraces).2 (by rw [hlength]; decide)⟩
  cases hr : (run ⟨none, true⟩ 8 turnedTraces).outcome with
  | converged r => exact (run_budget 2 true 8 turnedTraces).1 r hr (by rw [hlength])
  | _ =>
    rw [hr] at hconverged
    cases hconverged

end TraceCalculus.Canonical
