import TraceCalculus.Proofs.Congruence
import TraceCalculus.Proofs.Journals

/-! # A canonical form is its own canonical form

A single stage may turn an expression back and forth, and the rounds may end where they come to an
expression again that they have been at. What they end with is then congruent to an expression on
the way, so a second run takes the same way from there on and comes back to where it started
(`Canonical.run_idempotent`).

For this a run has to do the same on congruent expressions: `Canonical.Mirrors V m m'` says that
wherever the part `m` of a run ends with its budget left, `m'` does, too, with a related result, if
what is remembered in its journal is congruent and it has not taken more steps. So a run that keeps
within its budget also does the same without one (`Canonical.Allows`).
-/

set_option autoImplicit false

namespace TraceCalculus.Canonical

variable {S α α' β β' : Type} [Scalar S] [CongruentScalar S]

/-- Two runs with their budget left, of which the second has not taken more steps. -/
structure Abreast (j j' : Journal S) : Prop where
  left : j.exhausted = false
  left' : j'.exhausted = false
  size_le : j'.steps.size ≤ j.steps.size

/-- Two entries of a memo, for congruent expressions. -/
def Remembered (p p' : Expr S × Expr S) : Prop := p.1.Congruent p'.1 ∧ p.2.Congruent p'.2

/-- The two runs also remember the same. -/
structure Alongside (j j' : Journal S) : Prop extends Abreast j j' where
  memo : List.Forall₂ Remembered j.memo j'.memo

/-- Options that stop no run that the first ones let go on. -/
structure Allows (options options' : Options) : Prop where
  memoize : options'.memoize = options.memoize
  budget : options'.budget = none ∨ options'.budget = options.budget

theorem Allows.refl (options : Options) : Allows options options := ⟨rfl, .inr rfl⟩

/-- Where `m` ends with its budget left, `m'` ends with a related result. -/
def Mirrors (V : α → α' → Prop) (m : Running S α) (m' : Running S α') : Prop :=
  ∀ j j' a k, Alongside j j' → m j = .ok a k → k.exhausted = false →
    ∃ a' k', m' j' = .ok a' k' ∧ V a a' ∧ Alongside k k'

section Basic

variable {options options' : Options} {V : α → α' → Prop} {W : β → β' → Prop} {m : Running S α}
  {m' : Running S α'} {f : α → Running S β} {f' : α' → Running S β'}

theorem mirrors_pure {a : α} {a' : α'} (h : V a a') :
    Mirrors V (pure a : Running S α) (pure a' : Running S α') := by
  intro j j' b k hj hb _
  cases hb
  exact ⟨a', j', rfl, h, hj⟩

theorem mirrors_outOfFuel : Mirrors V (throw .outOfFuel : Running S α) m' := by
  intro j j' b k _ hb
  cases hb

theorem Mirrors.bind (hm : Mirrors V m m') (hg : ∀ a, Grows options (f a))
    (hf : ∀ {a a'}, V a a' → Mirrors W (f a) (f' a')) : Mirrors W (m >>= f) (m' >>= f') := by
  intro j j' b k hj hb hk
  obtain ⟨a, i, ha, hb⟩ := bind_eq_ok hb
  obtain ⟨a', i', ha', hV, hi'⟩ := hm j j' a i hj ha (((hg a).of_ok hb).left hk)
  rw [bind_ok f' ha']
  exact hf hV i i' b k hi' hb hk

/-- A loop that is left in both runs or in neither. -/
theorem Mirrors.check {c d : Bool → Bool} {a : α} {a' : α'} (hc : c false = d false)
    (ha : V a a') (h : Mirrors V m m') :
    Mirrors V
      (do
        let journal ← get
        if c journal.exhausted then return a else m)
      (do
        let journal ← get
        if d journal.exhausted then return a' else m') := by
  intro j j' b k hj hb hk
  change (if c j.exhausted = true then pure a else m : Running S α) j = _ at hb
  change ∃ b' k', (if d j'.exhausted = true then pure a' else m' : Running S α') j' = .ok b' k' ∧ _
  rw [hj.left] at hb
  rw [hj.left', ← hc]
  split at hb
  case isTrue h =>
    rw [if_pos h]
    exact mirrors_pure ha j j' b k hj hb hk
  case isFalse hn =>
    rw [if_neg hn]
    exact h j j' b k hj hb hk

/-- The second run can afford a step where the first one can. -/
theorem mirrors_spend (ho : Allows options options') (step step' : Step S) :
    Mirrors Eq (spend options step) (spend options' step') := by
  intro j j' a k hj ha hk
  cases hb : options.budget.any (· ≤ j.steps.size) with
  | true =>
    rw [spend_of_spent hb] at ha
    cases ha
    cases hk
  | false =>
    rw [spend_of_left hb] at ha
    cases ha
    have hb' : options'.budget.any (· ≤ j'.steps.size) = false := by
      rcases ho.budget with hn | hn
      · rw [hn]
        rfl
      · rw [hn]
        cases hn : options.budget with
        | none => rfl
        | some n =>
          simp only [hn, Option.any_some, decide_eq_false_iff_not, Nat.not_le] at hb ⊢
          exact Nat.lt_of_le_of_lt hj.size_le hb
    refine ⟨true, _, spend_of_left hb', rfl, ⟨hj.left, hj.left', ?_⟩, hj.memo⟩
    simp only [Array.size_push]
    exact Nat.succ_le_succ hj.size_le

end Basic

/-! ## Loops -/

variable {options options' : Options} {stage : Stage} {rules : List (Rule S)}
  {visit visit' : List Nat → Expr S → Running S (Expr S)} {path : List Nat} {e e' : Expr S}
  {seen seen' : List (Expr S)}

theorem Mirrors.rebuild (hg : ∀ path e, Grows options (visit path e))
    (hv : ∀ path {e e'}, e.Congruent e' → Mirrors Expr.Congruent (visit path e) (visit' path e'))
    (he : e.Congruent e') :
    Mirrors Expr.Congruent (rebuild visit path e) (rebuild visit' path e') := by
  have hpure : ∀ x, Grows options (pure x : Running S (Expr S)) := grows_pure
  cases he with
  | var | scalarVar | literal | null => exact mirrors_pure (by constructor <;> assumption)
  | differential ha =>
    exact (hv _ ha).bind (fun _ => hpure _) fun h => mirrors_pure (.differential h.asOperand)
  | trace ha => exact (hv _ ha).bind (fun _ => hpure _) fun h => mirrors_pure h.traced
  | transpose ha => exact (hv _ ha).bind (fun _ => hpure _) fun h => mirrors_pure h.transposed
  | add ha hb =>
    exact (hv _ ha).bind (fun _ => (hg _ _).bind fun _ => hpure _) fun h =>
      (hv _ hb).bind (fun _ => hpure _) fun h' => mirrors_pure (h.plus h')
  | sub ha hb =>
    exact (hv _ ha).bind (fun _ => (hg _ _).bind fun _ => hpure _) fun h =>
      (hv _ hb).bind (fun _ => hpure _) fun h' => mirrors_pure (h.minus h')
  | scale ha hb | matMul ha hb =>
    exact (hv _ ha).bind (fun _ => (hg _ _).bind fun _ => hpure _) fun h =>
      (hv _ hb).bind (fun _ => hpure _) fun h' => mirrors_pure (h.times h')

theorem Mirrors.settleOperands (hg : ∀ path e, Grows options (visit path e))
    (hv : ∀ path {e e'}, e.Congruent e' → Mirrors Expr.Congruent (visit path e) (visit' path e'))
    (fuel : Nat) (hs : List.Forall₂ Expr.Congruent seen seen') (he : e.Congruent e') :
    Mirrors Expr.Congruent (settleOperands visit path fuel seen e)
      (settleOperands visit' path fuel seen' e') := by
  induction fuel generalizing seen seen' e e' with
  | zero => exact mirrors_outOfFuel
  | succ fuel ih =>
    refine (Mirrors.rebuild hg hv he).bind (fun next => grows_get.bind fun _ =>
      .ite _ (grows_pure next) (.settleOperands hg path fuel (next :: seen) next))
      fun {next next'} h => ?_
    refine .check (c := fun x => next == e || x || isSeen seen next)
      (d := fun x => next' == e' || x || isSeen seen' next') ?_ h (ih (.cons h hs) h)
    rw [h.beq he, isSeen_congruent hs h]

theorem Mirrors.applyRules {operands operands' : Expr S → Running S (Expr S)}
    (ho : Allows options options') (hg : ∀ e, Grows options (operands e))
    (hop : ∀ {e e'}, e.Congruent e' → Mirrors Expr.Congruent (operands e) (operands' e'))
    (fuel : Nat) (previous : Option (Expr S)) (hs : List.Forall₂ Expr.Congruent seen seen')
    (he : e.Congruent e') :
    Mirrors Expr.Congruent (applyRules options stage rules operands path fuel seen previous e)
      (applyRules options' stage rules operands' path fuel seen' previous e') := by
  induction fuel generalizing seen seen' previous e e' with
  | zero => exact mirrors_outOfFuel
  | succ fuel ih =>
    have hc := choose_congruent rules previous hs he
    cases hm : choose rules seen previous e with
    | none =>
      rw [hm] at hc
      cases hm' : choose rules seen' previous e' with
      | some => rw [hm'] at hc; cases hc
      | none =>
        rw [applyRules_none hm, applyRules_none hm']
        exact mirrors_pure he
    | some m =>
      rw [hm] at hc
      cases hm' : choose rules seen' previous e' with
      | none => rw [hm'] at hc; cases hc
      | some m' =>
        rw [hm'] at hc
        have hmm : m.Congruent m' := by cases hc; assumption
        rw [applyRules_some hm, applyRules_some hm']
        refine .check (c := id) (d := id) rfl he ((mirrors_spend ho _ _).bind
          (fun allowed => (?_ : Grows options _)) fun {allowed allowed'} h => ?_)
        · exact .ite _ ((hg m.output).bind fun next => .ite _ (grows_pure next)
            (.applyRules hg path fuel _ _ next)) (grows_pure e)
        · subst h
          cases allowed with
          | false => exact mirrors_pure he
          | true =>
            refine (hop hmm.output).bind (fun next => .ite _ (grows_pure next)
              (.applyRules hg path fuel _ _ next)) fun {next next'} h => ?_
            rw [isSeen_congruent hs h, hmm.rule]
            split
            · exact mirrors_pure h
            · exact ih _ (.cons h hs) h

theorem Mirrors.settleNode (ho : Allows options options')
    (hg : ∀ path e, Grows options (visit path e))
    (hv : ∀ path {e e'}, e.Congruent e' → Mirrors Expr.Congruent (visit path e) (visit' path e'))
    (fuel : Nat) (he : e.Congruent e') :
    Mirrors Expr.Congruent (settleNode options stage rules visit path fuel e)
      (settleNode options' stage rules visit' path fuel e') := by
  have hop : ∀ {x x' : Expr S}, x.Congruent x' → Mirrors Expr.Congruent
      (Canonical.settleOperands visit path fuel [x] x)
      (Canonical.settleOperands visit' path fuel [x'] x') :=
    fun hx => .settleOperands hg hv fuel (.cons hx .nil) hx
  have hgo : ∀ x, Grows options (Canonical.settleOperands visit path fuel [x] x) :=
    fun x => .settleOperands hg path fuel [x] x
  exact (hop he).bind (fun start => .applyRules hgo path fuel [start] none start) fun h =>
    .applyRules ho hgo hop fuel none (.cons h .nil) h

theorem recall_congruent {j j' : Journal S} (hm : List.Forall₂ Remembered j.memo j'.memo)
    (he : e.Congruent e') : Option.Rel Expr.Congruent (j.recall? e) (j'.recall? e') := by
  unfold Journal.recall?
  generalize j.memo = l at hm
  generalize j'.memo = l' at hm
  induction hm with
  | nil => exact .none
  | cons hp _ ih =>
    rw [List.find?_cons, List.find?_cons, hp.1.beq he]
    split
    · exact .some hp.2
    · exact ih

theorem mirrors_remember {r r' : Expr S} (ho : Allows options options') (he : e.Congruent e')
    (hr : r.Congruent r') :
    Mirrors (fun _ _ => True)
      (modify fun journal : Journal S =>
        if options.memoize && !journal.exhausted then journal.remember e r else journal)
      (modify fun journal =>
        if options'.memoize && !journal.exhausted then journal.remember e' r' else journal) := by
  intro j j' a k hj ha hk
  cases ha
  refine ⟨⟨⟩, _, rfl, trivial, ?_⟩
  simp only [hj.left, hj.left', ho.memoize]
  split
  · exact ⟨⟨hj.left, hj.left', hj.size_le⟩, .cons ⟨hr, hr⟩ (.cons ⟨he, hr⟩ hj.memo)⟩
  · exact hj

theorem mirrors_settle (ho : Allows options options') (fuel : Nat) (path : List Nat)
    (he : e.Congruent e') :
    Mirrors Expr.Congruent (settle options stage rules fuel path e)
      (settle options' stage rules fuel path e') := by
  induction fuel generalizing path e e' with
  | zero => exact mirrors_outOfFuel
  | succ fuel ih =>
    intro j j' r k hj hr hk
    have hrecall : Option.Rel Expr.Congruent (if options.memoize = true then j.recall? e else none)
        (if options'.memoize = true then j'.recall? e' else none) := by
      rw [ho.memoize]
      split
      · exact recall_congruent hj.memo he
      · exact .none
    cases hs : if options.memoize = true then j.recall? e else none with
    | some settled =>
      rw [hs] at hrecall
      cases hs' : if options'.memoize = true then j'.recall? e' else none with
      | none => rw [hs'] at hrecall; cases hrecall
      | some settled' =>
        rw [hs'] at hrecall
        rw [settle_of_recalled hs] at hr
        cases hr
        exact ⟨settled', j', settle_of_recalled hs', by cases hrecall; assumption, hj⟩
    | none =>
      rw [hs] at hrecall
      cases hs' : if options'.memoize = true then j'.recall? e' else none with
      | some => rw [hs'] at hrecall; cases hrecall
      | none =>
        rw [settle_of_fresh hs] at hr
        rw [settle_of_fresh hs']
        refine Mirrors.bind
          (.settleNode ho (grows_settle fuel) (fun path {_ _} he => ih path he) fuel he)
          (fun settled => (grows_remember e settled).bind fun _ => grows_pure settled)
          (fun {settled settled'} h => ?_) j j' r k hj hr hk
        have hpure : Grows options (pure settled : Running S (Expr S)) := grows_pure settled
        exact (mirrors_remember ho he h).bind (fun _ => hpure) fun _ => mirrors_pure h

/-- What was remembered in another stage does not matter. -/
theorem mirrors_runStage {j j' : Journal S} {r : Expr S} {k : Journal S}
    (ho : Allows options options') (fuel : Nat)
    (he : e.Congruent e') (hj : Abreast j j') (hr : runStage options fuel stage e j = .ok r k)
    (hk : k.exhausted = false) :
    ∃ r' k', runStage options' fuel stage e' j' = .ok r' k' ∧ r.Congruent r' ∧ Abreast k k' := by
  obtain ⟨r', k', hr', hc, hk'⟩ := mirrors_settle ho fuel [1] he { j with memo := [] }
    { j' with memo := [] } r k ⟨⟨hj.left, hj.left', hj.size_le⟩, .nil⟩ hr hk
  exact ⟨r', k', hr', hc, hk'.toAbreast⟩

theorem mirrors_runStages {j j' : Journal S} {r : Expr S} {k : Journal S}
    (ho : Allows options options') (fuel : Nat)
    (he : e.Congruent e') (hj : Abreast j j') (hr : runStages options fuel e j = .ok r k)
    (hk : k.exhausted = false) :
    ∃ r' k', runStages options' fuel e' j' = .ok r' k' ∧ r.Congruent r' ∧ Abreast k k' := by
  rw [runStages_eq] at hr ⊢
  obtain ⟨a, ja, ha, hr⟩ := bind_eq_ok hr
  obtain ⟨b, jb, hb, hr⟩ := bind_eq_ok hr
  have hjb := ((grows_runStage fuel b).of_ok hr).left hk
  have hja := ((grows_runStage fuel a).of_ok hb).left hjb
  obtain ⟨a', ja', ha', haa, hj⟩ := mirrors_runStage ho fuel he hj ha hja
  obtain ⟨b', jb', hb', hbb, hj⟩ := mirrors_runStage ho fuel haa hj hb hjb
  obtain ⟨r', k', hr', hrr, hj⟩ := mirrors_runStage ho fuel hbb hj hr hk
  refine ⟨r', k', ?_, hrr, hj⟩
  rw [bind_ok _ ha', bind_ok _ hb']
  exact hr'

/-! ## Rounds -/

/-- An expression on the way of the rounds that end with `r`, and the rest of the way. -/
def OnTheWay (options : Options) (fuel : Nat) (r : Expr S) (k : Journal S) (y : Expr S) : Prop :=
  ∃ turns ≤ fuel, ∃ seen j, y ∈ seen ∧ rounds options fuel turns seen y j = .ok r k

omit [CongruentScalar S] in
/-- The rounds end with a change, which is for an expression that has not been seen, or with one
that has. -/
theorem rounds_succ {fuel turns : Nat} {r : Expr S} {j k : Journal S}
    (h : rounds options fuel (turns + 1) seen e j = .ok r k) (hk : k.exhausted = false) :
    ∃ next i, runStages options fuel e j = .ok next i ∧ i.exhausted = false ∧
      ((next == e || isSeen seen next) = true ∧ next = r ∧ i = k ∨
        (next == e || isSeen seen next) = false ∧
          rounds options fuel turns (next :: seen) next i = .ok r k) := by
  obtain ⟨next, i, hnext, h⟩ := bind_eq_ok h
  change (if (i.exhausted || next == e || isSeen seen next) = true then pure next
    else rounds options fuel turns (next :: seen) next : Running S (Expr S)) i = _ at h
  have hgrows : Grows options (if (i.exhausted || next == e || isSeen seen next) = true
      then pure next else rounds options fuel turns (next :: seen) next) :=
    .ite _ (grows_pure next) (grows_rounds fuel turns (next :: seen) next)
  have hi := (hgrows.of_ok h).left hk
  refine ⟨next, i, hnext, hi, ?_⟩
  rw [hi, Bool.false_or] at h
  split at h
  case isTrue hs =>
    cases h
    exact .inl ⟨hs, rfl, rfl⟩
  case isFalse hs => exact .inr ⟨by simpa using hs, h⟩

/-- What the rounds end with has been seen on the way. -/
theorem exists_onTheWay {fuel turns : Nat} {r : Expr S} {j k : Journal S} (hk : k.exhausted = false)
    (hturns : turns ≤ fuel) (hseen : ∀ y ∈ seen, OnTheWay options fuel r k y) (he : e ∈ seen)
    (h : rounds options fuel turns seen e j = .ok r k) :
    ∃ y, (y == r) = true ∧ OnTheWay options fuel r k y := by
  induction turns generalizing seen e j with
  | zero => cases h
  | succ turns ih =>
    obtain ⟨next, i, -, -, ⟨hs, rfl, rfl⟩ | ⟨-, hrest⟩⟩ := rounds_succ h hk
    · rw [Bool.or_eq_true] at hs
      rcases hs with hs | hs
      · have hc := Expr.Congruent.of_beq hs
        refine ⟨e, ?_, hseen e he⟩
        rw [Expr.Congruent.beq (.refl e) hc, ← Expr.Congruent.beq hc (.refl e)]
        exact hs
      · obtain ⟨y, hy, hyr⟩ := List.any_eq_true.1 hs
        exact ⟨y, hyr, hseen y hy⟩
    · refine ih (Nat.le_of_succ_le hturns) (fun y hy => ?_) (.head _) hrest
      rcases List.mem_cons.1 hy with rfl | hy
      · exact ⟨turns, Nat.le_of_succ_le hturns, _, i, .head _, hrest⟩
      · exact hseen y hy

/-- A second run goes the rest of a way, and back to where it started. -/
theorem rounds_again {fuel turns : Nat} {x y z r : Expr S} {j j' k : Journal S}
    (hk : k.exhausted = false) (h : rounds options fuel turns seen y j = .ok r k)
    (hseen : ∀ z' ∈ seen', ∃ z ∈ seen, z.Congruent z') (hz : z ∈ seen') (hzr : (z == r) = true)
    (hxy : y.Congruent x) (hj : Abreast j j') :
    ∃ r' k', rounds options fuel turns seen' x j' = .ok r' k' ∧ r.Congruent r' ∧
      k'.exhausted = false := by
  induction turns generalizing seen seen' x y j j' with
  | zero => cases h
  | succ turns ih =>
    obtain ⟨next, i, hnext, hi, hend⟩ := rounds_succ h hk
    obtain ⟨next', i', hnext', hc, hii⟩ := mirrors_runStages (.refl options) fuel hxy hj hnext hi
    have hround : rounds options fuel (turns + 1) seen' x j' =
        (if (next' == x || isSeen seen' next') = true then pure next'
          else rounds options fuel turns (next' :: seen') next' : Running S (Expr S)) i' := by
      refine (bind_ok _ hnext').trans ?_
      change (if (i'.exhausted || next' == x || isSeen seen' next') = true then pure next'
        else rounds options fuel turns (next' :: seen') next' : Running S (Expr S)) i' = _
      rw [hii.left', Bool.false_or]
    rw [hround]
    rcases hend with ⟨-, rfl, rfl⟩ | ⟨hs, hrest⟩
    · -- the way ends at `r`, which the second run started from
      have hback : isSeen seen' next' = true :=
        List.any_eq_true.2 ⟨z, hz, by rwa [← Expr.Congruent.beq (.refl z) hc]⟩
      rw [hback, Bool.or_true, if_pos rfl]
      exact ⟨next', i', rfl, hc, hii.left'⟩
    · -- what the second run has seen the first one had seen, too, so it goes on as well
      have hs' : (next' == x || isSeen seen' next') = false := by
        rw [Bool.or_eq_false_iff] at hs ⊢
        refine ⟨by rw [← hc.beq hxy, hs.1], ?_⟩
        rw [← Bool.not_eq_true]
        intro hmem
        obtain ⟨z', hz', hzn⟩ := List.any_eq_true.1 hmem
        obtain ⟨w, hw, hwz⟩ := hseen z' hz'
        rw [← hwz.beq hc] at hzn
        have hmem : isSeen seen next = true := List.any_eq_true.2 ⟨w, hw, hzn⟩
        rw [hs.2] at hmem
        cases hmem
      rw [hs', if_neg Bool.false_ne_true]
      refine ih hrest (fun z' hz' => ?_) (.tail _ hz) hc hii
      rcases List.mem_cons.1 hz' with rfl | hz'
      · exact ⟨next, .head _, hc⟩
      · obtain ⟨w, hw, hwz⟩ := hseen z' hz'
        exact ⟨w, .tail _ hw, hwz⟩

/-- What a run converges to, with any budget, is what a second run from there converges to, up to
`==`. -/
theorem run_idempotent {fuel : Nat} {e r : Expr S}
    (h : (run options fuel e).outcome = .converged r) :
    ∃ r', (run options fuel r).outcome = .converged r' ∧ (r' == r) = true := by
  obtain ⟨k, hr, hk⟩ := rounds_of_converged h
  have hself : ∀ y ∈ [e], OnTheWay options fuel r k y := by
    intro y hy
    obtain rfl := List.mem_singleton.1 hy
    exact ⟨fuel, Nat.le_refl fuel, [y], {}, .head _, hr⟩
  obtain ⟨y, hyr, turns, hturns, seen, j, hy, hway⟩ :=
    exists_onTheWay hk (Nat.le_refl fuel) hself (.head _) hr
  have hc := Expr.Congruent.of_beq hyr
  have hrr : (r == r) = true := by rwa [← hc.beq (.refl r)]
  have hj : Abreast j ({} : Journal S) :=
    ⟨((grows_rounds fuel turns seen y).of_ok hway).left hk, rfl, Nat.zero_le _⟩
  have hseen : ∀ z' ∈ [r], ∃ z ∈ seen, z.Congruent z' := by
    intro z' hz'
    obtain rfl := List.mem_singleton.1 hz'
    exact ⟨y, hy, hc⟩
  obtain ⟨r', k', hr', hc', hk'⟩ := rounds_again hk hway hseen (.head _) hrr hc hj
  refine ⟨r', ?_, by rwa [← Expr.Congruent.beq hc' (.refl r)]⟩
  rw [run_of_ok (prolongs_rounds (Nat.le_refl fuel) hturns [r] r _ _ _ hr'), hk']
  rfl

/-- A product of two differentials, which every stage turns around. -/
def twoDifferentials : Expr Int :=
  .trace (.matMul (.differential (.var "A")) (.differential (.var "B")))

theorem run_idempotent_twoDifferentials :
    ∃ r, (run ⟨some 6, false⟩ 12 twoDifferentials).outcome = .converged r ∧
      ∃ r', (run ⟨some 6, false⟩ 12 r).outcome = .converged r' ∧ (r' == r) = true := by
  have hconverged :
      ((run ⟨some 6, false⟩ 12 twoDifferentials).outcome matches .converged _) = true := by
    decide +kernel
  cases hr : (run ⟨some 6, false⟩ 12 twoDifferentials).outcome with
  | converged r => exact ⟨r, rfl, run_idempotent hr⟩
  | _ =>
    rw [hr] at hconverged
    cases hconverged

end TraceCalculus.Canonical
