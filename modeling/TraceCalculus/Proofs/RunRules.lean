import TraceCalculus.Proofs.ExactScalar
import TraceCalculus.Proofs.Fuel

/-! # Proof rules for runs

`Yields inv m post`: a part `m` of a run that starts with a journal satisfying `inv` and does not run
out of fuel ends with such a journal, and `post` holds of its result. There is one rule for each
loop of a run:

* `Yields.settleOperands` and `Yields.applyRules` take an invariant of the expressions seen so far
  and the current one, and ask at each exit for what is to be shown of the result;
* `Yields.settle` is the induction over the fuel: what is to be shown of a node may be assumed of
  its operands.

A run without a limit (`Unlimited`) leaves a loop only where it would go back. If all it does leads
ahead in the sense of a transitive relation, `Unlimited.settleOperands` and `Unlimited.settleNode`
ask no more than what each exit means for that relation.

A relation between expressions that each part of a run respects (`Respected`) then holds between the
start and the result of a whole run (`Respected.run`). It may be one on a domain of expressions
only, if operands and results do not leave the domain. Where the parts end, too (`Ends`), they end
with what they yield.
-/

set_option autoImplicit false

namespace TraceCalculus.Canonical

variable {S α β : Type}

/-- If `m` comes to an end, it keeps `inv` and its result satisfies `post`. -/
def Yields (inv : Journal S → Prop) (m : Running S α) (post : α → Journal S → Prop) : Prop :=
  ∀ j, inv j → ∀ a j', m j = .ok a j' → inv j' ∧ post a j'

section Basic

variable {inv : Journal S → Prop} {m : Running S α} {P Q : α → Journal S → Prop}

theorem Yields.pure {a : α} (h : ∀ j, inv j → P a j) : Yields inv (pure a : Running S α) P := by
  intro j hj b j' hb
  cases hb
  exact ⟨hj, h j hj⟩

theorem Yields.bind {f : α → Running S β} {R : β → Journal S → Prop} (hm : Yields inv m P)
    (hf : ∀ a j, inv j → P a j → ∀ b j', f a j = .ok b j' → inv j' ∧ R b j') :
    Yields inv (m >>= f) R := by
  intro j hj b j' hb
  change (EStateM.bind m f) j = _ at hb
  unfold EStateM.bind at hb
  cases hmj : m j with
  | ok a k =>
    rw [hmj] at hb
    obtain ⟨hk, ha⟩ := hm j hj a k hmj
    exact hf a k hk ha b j' hb
  | error err k =>
    rw [hmj] at hb
    cases hb

/-- The rule of sequence where the journal in between does not matter. -/
theorem Yields.seq {p : α → Prop} {f : α → Running S β} {R : β → Journal S → Prop}
    (hm : Yields inv m fun a _ => p a) (hf : ∀ a, p a → Yields inv (f a) R) :
    Yields inv (m >>= f) R :=
  hm.bind fun a j hj ha => hf a ha j hj

theorem Yields.mono (hm : Yields inv m P) (h : ∀ a j, inv j → P a j → Q a j) : Yields inv m Q := by
  intro j hj a j' ha
  obtain ⟨hj', hp⟩ := hm j hj a j' ha
  exact ⟨hj', h a j' hj' hp⟩

theorem Yields.and (hm : Yields inv m P) (hm' : Yields inv m Q) :
    Yields inv m fun a j => P a j ∧ Q a j :=
  fun j hj a j' ha => ⟨(hm j hj a j' ha).1, (hm j hj a j' ha).2, (hm' j hj a j' ha).2⟩

theorem Yields.outOfFuel : Yields inv (throw .outOfFuel : Running S α) P := by
  intro j _ a j' h
  cases h

theorem Yields.modifying {f : Journal S → Journal S} {R : PUnit → Journal S → Prop}
    (h : ∀ j, inv j → inv (f j) ∧ R ⟨⟩ (f j)) : Yields inv (modify f : Running S PUnit) R := by
  intro j hj a j' ha
  cases ha
  exact h j hj

theorem Yields.getting : Yields inv (get : Running S (Journal S)) fun a j => a = j := by
  intro j hj a j' ha
  cases ha
  exact ⟨hj, rfl⟩

end Basic

section Runs

variable [Scalar S] {inv : Journal S → Prop} {options : Options} {stage : Stage}
  {rules : List (Rule S)} {visit : List Nat → Expr S → Running S (Expr S)} {path : List Nat}

/-! ## Settling operands -/

/-- `r` is `e` built again over operands that are related to its own. -/
inductive Rebuilt (R : Expr S → Expr S → Prop) : Expr S → Expr S → Prop
  | var (name : String) : Rebuilt R (.var name) (.var name)
  | scalarVar (name : String) : Rebuilt R (.scalarVar name) (.scalarVar name)
  | literal (x : S) : Rebuilt R (.literal x) (.literal x)
  | null : Rebuilt R .null .null
  | differential {a a' : Expr S} (ha : R a a') :
      Rebuilt R (.differential a) (.differential a'.asOperand)
  | add {a a' b b' : Expr S} (ha : R a a') (hb : R b b') : Rebuilt R (.add a b) (a' + b')
  | sub {a a' b b' : Expr S} (ha : R a a') (hb : R b b') : Rebuilt R (.sub a b) (a' - b')
  | scale {a a' b b' : Expr S} (ha : R a a') (hb : R b b') : Rebuilt R (.scale a b) (a' * b')
  | matMul {a a' b b' : Expr S} (ha : R a a') (hb : R b b') : Rebuilt R (.matMul a b) (a' * b')
  | trace {a a' : Expr S} (ha : R a a') : Rebuilt R (.trace a) a'.traced
  | transpose {a a' : Expr S} (ha : R a a') : Rebuilt R (.transpose a) a'.transposed

theorem Yields.rebuild {W : Expr S → Prop} {R : Expr S → Expr S → Prop}
    (hv : ∀ path e, W e → Yields inv (visit path e) fun r _ => R e r) (e : Expr S)
    (he : ∀ a ∈ e.children, W a) :
    Yields inv (rebuild visit path e) fun r _ => Rebuilt R e r := by
  cases e with
  | var name => exact .pure fun _ _ => .var name
  | scalarVar name => exact .pure fun _ _ => .scalarVar name
  | literal x => exact .pure fun _ _ => .literal x
  | null => exact .pure fun _ _ => .null
  | differential a =>
    have ha := he a (.head _)
    exact (hv _ a ha).seq fun a' ha => .pure fun _ _ => .differential ha
  | add a b =>
    have ha := he a (.head _)
    have hb := he b (.tail _ (.head _))
    exact (hv _ a ha).seq fun a' ha => (hv _ b hb).seq fun b' hb => .pure fun _ _ => .add ha hb
  | sub a b =>
    have ha := he a (.head _)
    have hb := he b (.tail _ (.head _))
    exact (hv _ a ha).seq fun a' ha => (hv _ b hb).seq fun b' hb => .pure fun _ _ => .sub ha hb
  | scale a b =>
    have ha := he a (.head _)
    have hb := he b (.tail _ (.head _))
    exact (hv _ a ha).seq fun a' ha => (hv _ b hb).seq fun b' hb => .pure fun _ _ => .scale ha hb
  | matMul a b =>
    have ha := he a (.head _)
    have hb := he b (.tail _ (.head _))
    exact (hv _ a ha).seq fun a' ha => (hv _ b hb).seq fun b' hb => .pure fun _ _ => .matMul ha hb
  | trace a =>
    have ha := he a (.head _)
    exact (hv _ a ha).seq fun a' ha => .pure fun _ _ => .trace ha
  | transpose a =>
    have ha := he a (.head _)
    exact (hv _ a ha).seq fun a' ha => .pure fun _ _ => .transpose ha

theorem Rebuilt.mono {R R' : Expr S → Expr S → Prop} (hR : ∀ a b, R a b → R' a b) {e r : Expr S}
    (h : Rebuilt R e r) : Rebuilt R' e r := by
  cases h with
  | var name => exact .var name
  | scalarVar name => exact .scalarVar name
  | literal x => exact .literal x
  | null => exact .null
  | differential ha => exact .differential (hR _ _ ha)
  | add ha hb => exact .add (hR _ _ ha) (hR _ _ hb)
  | sub ha hb => exact .sub (hR _ _ ha) (hR _ _ hb)
  | scale ha hb => exact .scale (hR _ _ ha) (hR _ _ hb)
  | matMul ha hb => exact .matMul (hR _ _ ha) (hR _ _ hb)
  | trace ha => exact .trace (hR _ _ ha)
  | transpose ha => exact .transpose (hR _ _ ha)

/-- The loop over the operands. -/
theorem Yields.settleOperands {K : List (Expr S) → Expr S → Prop} {P : Expr S → Prop}
    (hstep : ∀ seen e, K seen e → Yields inv (Canonical.rebuild visit path e) fun next j =>
      ((next == e) = true ∨ j.exhausted = true ∨ isSeen seen next = true → P next) ∧
        ((next == e) = false → isSeen seen next = false → K (next :: seen) next))
    (fuel : Nat) {seen : List (Expr S)} {e : Expr S} (hK : K seen e) :
    Yields inv (Canonical.settleOperands visit path fuel seen e) fun r _ => P r := by
  induction fuel generalizing seen e with
  | zero => exact .outOfFuel
  | succ fuel ih =>
    unfold Canonical.settleOperands
    refine (hstep seen e hK).bind fun next j hj hnext r j' hr => ?_
    change (if (next == e || j.exhausted || isSeen seen next) = true then _ else _ : Running S _) j
      = _ at hr
    split at hr
    case isTrue h =>
      simp only [Bool.or_eq_true, or_assoc] at h
      cases hr
      exact ⟨hj, hnext.1 h⟩
    case isFalse h =>
      simp only [Bool.or_eq_true, not_or, Bool.not_eq_true] at h
      exact ih (hnext.2 h.1.1 h.2) j hj r j' hr

/-! ## Applying rules -/

theorem mem_of_choose {seen : List (Expr S)} {previous : Option (Expr S)} {e : Expr S}
    {m : RuleMatch S} (h : choose rules seen previous e = some m) :
    m ∈ ruleMatches e rules ∧ (m.output == e) = false ∧ isSeen seen m.output = false := by
  unfold choose at h
  have hmem := List.mem_of_find?_eq_some h
  have hp := List.find?_some h
  simp only [Bool.and_eq_true, Bool.not_eq_true'] at hp
  refine ⟨?_, hp⟩
  rw [List.mem_append] at hmem
  rcases hmem with hmem | hmem
  · exact (List.mem_filter.1 hmem).1
  · exact (List.mem_filter.1 hmem).1

/-- Where no rule is chosen, every match leads back. -/
theorem beq_or_isSeen_of_choose_eq_none {seen : List (Expr S)} {previous : Option (Expr S)}
    {e : Expr S} {m : RuleMatch S} (h : choose rules seen previous e = none)
    (hm : m ∈ ruleMatches e rules) : (m.output == e) = true ∨ isSeen seen m.output = true := by
  unfold choose at h
  rw [List.find?_eq_none] at h
  have hmem : m ∈ (ruleMatches e rules).filter (fun m => !previous.any (m.rule.replacement == ·))
      ++ (ruleMatches e rules).filter (fun m => previous.any (m.rule.replacement == ·)) := by
    rw [List.mem_append, List.mem_filter, List.mem_filter]
    cases previous.any (m.rule.replacement == ·) <;> simp [hm]
  simpa [or_iff_not_imp_left] using h m hmem

/-- The loop over the rules. -/
theorem Yields.applyRules {operands : Expr S → Running S (Expr S)}
    {L : List (Expr S) → Option (Expr S) → Expr S → Prop} {P : Expr S → Prop}
    (hstop : ∀ seen previous e j, L seen previous e → inv j → j.exhausted = true → P e)
    (hnone : ∀ seen previous e, L seen previous e → choose rules seen previous e = none → P e)
    (hspend : ∀ seen previous e m, L seen previous e → choose rules seen previous e = some m →
      Yields inv (spend options ⟨stage, path, m.rule, e, m.output⟩) fun allowed _ =>
        allowed = true ∨ P e)
    (hsome : ∀ seen previous e m, L seen previous e → choose rules seen previous e = some m →
      Yields inv (operands m.output) fun next _ => (isSeen seen next = true → P next) ∧
        (isSeen seen next = false → L (next :: seen) (some m.rule.replacement) next))
    (fuel : Nat) {seen : List (Expr S)} {previous : Option (Expr S)} {e : Expr S}
    (hL : L seen previous e) :
    Yields inv (Canonical.applyRules options stage rules operands path fuel seen previous e)
      fun r _ => P r := by
  induction fuel generalizing seen previous e with
  | zero => exact .outOfFuel
  | succ fuel ih =>
    unfold Canonical.applyRules
    refine Yields.bind .getting fun j' j hj hjj r j'' hr => ?_
    obtain rfl : j' = j := hjj
    by_cases hx : j'.exhausted = true
    · simp only [hx, if_true] at hr
      cases hr
      exact ⟨hj, hstop seen previous e j' hL hj hx⟩
    simp only [hx] at hr
    cases hc : choose rules seen previous e with
    | none =>
      simp only [hc] at hr
      cases hr
      exact ⟨hj, hnone seen previous e hL hc⟩
    | some m =>
      simp only [hc] at hr
      refine Yields.seq (R := fun r _ => P r) (hspend seen previous e m hL hc)
        (fun allowed hp => ?_) j' hj r j'' hr
      cases allowed with
      | false => exact .pure fun _ _ => hp.resolve_left Bool.false_ne_true
      | true =>
        refine (hsome seen previous e m hL hc).seq fun next hnext => ?_
        by_cases hseen : isSeen seen next = true
        · simp only [hseen, if_true]
          exact .pure fun _ _ => hnext.1 hseen
        · simp only [hseen]
          exact ih (hnext.2 (by simpa using hseen))

/-! ## Runs without a limit -/

/-- Where `inv` holds the budget is not spent, and no step is refused. -/
structure Unlimited (options : Options) (inv : Journal S → Prop) : Prop where
  unspent : ∀ {j}, inv j → j.exhausted = false
  allowed : ∀ step, Yields inv (spend options step) fun allowed _ => allowed = true

/-- The loop over the rules ends only where none is chosen or one leads back. -/
theorem Unlimited.applyRules (h : Unlimited options inv)
    {operands : Expr S → Running S (Expr S)}
    {L : List (Expr S) → Option (Expr S) → Expr S → Prop} {P : Expr S → Prop}
    (hnone : ∀ seen previous e, L seen previous e → choose rules seen previous e = none → P e)
    (hsome : ∀ seen previous e m, L seen previous e → choose rules seen previous e = some m →
      Yields inv (operands m.output) fun next _ => (isSeen seen next = true → P next) ∧
        (isSeen seen next = false → L (next :: seen) (some m.rule.replacement) next))
    (fuel : Nat) {seen : List (Expr S)} {previous : Option (Expr S)} {e : Expr S}
    (hL : L seen previous e) :
    Yields inv (Canonical.applyRules options stage rules operands path fuel seen previous e)
      fun r _ => P r := by
  refine Yields.applyRules (fun _ _ _ j _ hj hexhausted => ?_) hnone
    (fun _ _ _ _ _ _ => (h.allowed _).mono fun _ _ _ => .inl) hsome fuel hL
  rw [h.unspent hj] at hexhausted
  cases hexhausted

/-- Every expression seen before is `x` or one that `x` was made of. -/
def Ahead (R : Expr S → Expr S → Prop) (seen : List (Expr S)) (x : Expr S) : Prop :=
  ∀ y ∈ seen, y = x ∨ R y x

omit [Scalar S] in
theorem ahead_self {R : Expr S → Expr S → Prop} (x : Expr S) : Ahead R [x] x :=
  fun _ hy => .inl (List.mem_singleton.1 hy)

omit [Scalar S] in
theorem Ahead.cons {R : Expr S → Expr S → Prop} {seen : List (Expr S)} {x next : Expr S}
    (htrans : ∀ {a b c}, R a b → R b c → R a c) (h : Ahead R seen x) (hx : R x next) :
    Ahead R (next :: seen) next := by
  intro y hy
  rcases List.mem_cons.1 hy with rfl | hy
  · exact .inl rfl
  · rcases h y hy with rfl | hyx
    · exact .inr hx
    · exact .inr (htrans hyx hx)

theorem Ahead.exists_of_isSeen {R : Expr S → Expr S → Prop} {seen : List (Expr S)}
    {x next : Expr S} (h : Ahead R seen x) (hs : isSeen seen next = true) :
    ∃ y, (y == next) = true ∧ (y = x ∨ R y x) := by
  obtain ⟨y, hy, hyn⟩ := List.any_eq_true.1 hs
  exact ⟨y, hyn, h y hy⟩

/-- The loop over the operands ends where a pass keeps the expression or leads back. -/
theorem Unlimited.settleOperands (h : Unlimited options inv) {R : Expr S → Expr S → Prop}
    {P : Expr S → Prop} {fuel : Nat} {e : Expr S}
    (htrans : ∀ {a b c}, R a b → R b c → R a c)
    (hpass : ∀ seen x, x = e ∨ R e x → Ahead R seen x →
      Yields inv (Canonical.rebuild visit path x) fun next _ =>
        R x next ∧ ((next == x) = true ∨ isSeen seen next = true → P next)) :
    Yields inv (Canonical.settleOperands visit path fuel [e] e) fun r _ => R e r ∧ P r := by
  refine Yields.settleOperands (K := fun seen x => (x = e ∨ R e x) ∧ Ahead R seen x)
    (fun seen x hx => ?_) fuel ⟨.inl rfl, ahead_self e⟩
  refine (hpass seen x hx.1 hx.2).mono fun next j hj hnext => ?_
  have hstart : R e next := by
    rcases hx.1 with rfl | hex
    · exact hnext.1
    · exact htrans hex hnext.1
  refine ⟨fun hexit => ⟨hstart, hnext.2 ?_⟩, fun _ _ => ⟨.inr hstart, hx.2.cons htrans hnext.1⟩⟩
  rw [h.unspent hj] at hexit
  simpa using hexit

/-- A node is left where all matches lead back, or where settling what one has led to does. -/
theorem Unlimited.settleNode (h : Unlimited options inv) {R : Expr S → Expr S → Prop}
    {W Q P : Expr S → Prop} {fuel : Nat} {e : Expr S}
    (htrans : ∀ {a b c}, R a b → R b c → R a c)
    (hoperands : ∀ x, W x → Yields inv (Canonical.settleOperands visit path fuel [x] x)
      fun r _ => R x r ∧ Q r)
    (hrule : ∀ x m, R e x → Q x → m ∈ ruleMatches x rules → W m.output ∧ R x m.output)
    (hnone : ∀ seen x, R e x → Q x → Ahead R seen x → (∀ m ∈ ruleMatches x rules,
      (m.output == x) = true ∨ isSeen seen m.output = true) → P x)
    (hback : ∀ seen x m next, R e x → Q x → Ahead R seen x → m ∈ ruleMatches x rules →
      R m.output next → Q next → isSeen seen next = true → P next) (he : W e) :
    Yields inv (Canonical.settleNode options stage rules visit path fuel e) fun r _ =>
      R e r ∧ P r := by
  unfold Canonical.settleNode
  refine (hoperands e he).seq fun start hstart => ?_
  refine h.applyRules (L := fun seen _ x => R e x ∧ Q x ∧ Ahead R seen x)
    (fun seen previous x hx hchoose => ?_) (fun seen previous x m hx hm => ?_) fuel
    ⟨hstart.1, hstart.2, ahead_self start⟩
  · obtain ⟨hex, hQ, hahead⟩ := hx
    exact ⟨hex, hnone seen x hex hQ hahead fun m => beq_or_isSeen_of_choose_eq_none hchoose⟩
  · obtain ⟨hex, hQ, hahead⟩ := hx
    have hmem := (mem_of_choose hm).1
    obtain ⟨hW, hxm⟩ := hrule x m hex hQ hmem
    refine (hoperands m.output hW).mono fun next _ _ hnext => ?_
    have hxn := htrans hxm hnext.1
    exact ⟨fun hseen => ⟨htrans hex hxn, hback seen x m next hex hQ hahead hmem hnext.1 hnext.2
      hseen⟩, fun _ => ⟨htrans hex hxn, hnext.2, hahead.cons htrans hxn⟩⟩

/-! ## Settling -/

/-- The induction over the fuel. -/
theorem Yields.settle {W : Expr S → Prop} {R : Expr S → Expr S → Prop}
    (hrecall : ∀ j e r, inv j → j.recall? e = some r → R e r)
    (hremember : ∀ j e r, inv j → W e → R e r → inv (j.remember e r))
    (hnode : ∀ visit, (∀ path e, W e → Yields inv (visit path e) fun r _ => R e r) →
      ∀ path fuel e, W e → Yields inv (settleNode options stage rules visit path fuel e) fun r _ =>
        R e r)
    (fuel : Nat) (path : List Nat) (e : Expr S) (he : W e) :
    Yields inv (Canonical.settle options stage rules fuel path e) fun r _ => R e r := by
  induction fuel generalizing path e with
  | zero => exact .outOfFuel
  | succ fuel ih =>
    intro j hj r j' hr
    cases hs : if options.memoize = true then j.recall? e else none with
    | some settled =>
      rw [settle_of_recalled hs] at hr
      cases hr
      split at hs
      case isTrue => exact ⟨hj, hrecall j e _ hj hs⟩
      case isFalse => cases hs
    | none =>
      rw [settle_of_fresh hs] at hr
      refine Yields.seq (R := fun r _ => R e r) (hnode _ ih path fuel e he) (fun settled hR => ?_)
        j hj r j' hr
      refine Yields.seq (p := fun _ => True) (.modifying fun k hk => ⟨?_, trivial⟩)
        fun _ _ => .pure fun _ _ => hR
      split
      · exact hremember k e settled hk he hR
      · exact hk

/-! ## Whole runs -/

theorem Yields.runStages {fuel : Nat} {e : Expr S} {A B C : Expr S → Prop}
    (hA : Yields inv (runStage options fuel .isolate e) fun r _ => A r)
    (hB : ∀ a, A a → Yields inv (runStage options fuel .normalize a) fun r _ => B r)
    (hC : ∀ b, B b → Yields inv (runStage options fuel .collect b) fun r _ => C r) :
    Yields inv (Canonical.runStages options fuel e) fun r _ => C r := by
  rw [runStages_eq]
  exact hA.seq fun a ha => (hB a ha).seq fun b hb => hC b hb

/-- The loop over the rounds, with an invariant of the current expression. -/
theorem Yields.rounds {fuel : Nat} {K P : Expr S → Prop} (hKP : ∀ e, P e → K e)
    (hstep : ∀ e, K e → Yields inv (Canonical.runStages options fuel e) fun r _ => P r)
    (turns : Nat) {seen : List (Expr S)} {e : Expr S} (hK : K e) :
    Yields inv (Canonical.rounds options fuel turns seen e) fun r _ => P r := by
  induction turns generalizing seen e with
  | zero => exact .outOfFuel
  | succ turns ih =>
    unfold Canonical.rounds
    refine (hstep e hK).seq fun next hnext => Yields.bind .getting fun j' j hj _ r j'' hr => ?_
    split at hr
    · cases hr
      exact ⟨hj, hnext⟩
    · exact ih (hKP next hnext) j hj r j'' hr

theorem of_run {fuel : Nat} {e r : Expr S} {P : Expr S → Prop} (hinv : inv {})
    (h : Yields inv (rounds options fuel fuel [e] e) fun r _ => P r)
    (hr : (run options fuel e).outcome.result? = some r) : P r := by
  unfold run at hr
  split at hr
  case h_1 => cases hr
  case h_2 result j heq =>
    have hP := (h {} hinv result j heq).2
    split at hr <;> cases hr <;> exact hP

/-! ## Relations that runs respect -/

/-- A relation that holds between a node of the domain `W` and what a stage makes of it. -/
structure Respected (W : Expr S → Prop) (stage : Stage) (R : Expr S → Expr S → Prop) : Prop where
  /-- The domain has the operands of its nodes. -/
  operand : ∀ {a b}, W a → b ∈ a.children → W b
  /-- The domain has what its nodes are related to. -/
  result : ∀ {a b}, W a → R a b → W b
  trans : ∀ {a b c}, R a b → R b c → R a c
  /-- What is settled for an expression is settled for those that compare equal. -/
  recalled : ∀ {a a' b}, (a == a') = true → R a b → R a' b
  /-- What something is related to can be remembered as its own settled form. -/
  self : ∀ {a b}, W a → R a b → R b b
  rebuilt : ∀ {a b}, W a → Rebuilt R a b → R a b
  rule : ∀ {a b m}, W a → R a b → m ∈ ruleMatches b stage.rules → R b m.output

/-- A run without a limit has not spent its budget. -/
def Unspent (options : Options) (j : Journal S) : Prop :=
  options.budget = none → j.exhausted = false

/-- Every settled form in the journal is related to what it was remembered for. -/
structure Remembers (options : Options) (R : Expr S → Expr S → Prop) (j : Journal S) : Prop where
  related : ∀ p ∈ j.memo, R p.1 p.2
  unspent : Unspent options j

/-- What is recalled was remembered for an expression that compares equal. -/
theorem Remembers.exists_of_recall {R : Expr S → Expr S → Prop} {j : Journal S} {e r : Expr S}
    (hj : Remembers options R j) (h : j.recall? e = some r) : ∃ x, (x == e) = true ∧ R x r := by
  obtain ⟨p, hp, rfl⟩ := Option.map_eq_some_iff.1 h
  have heq := List.find?_some hp
  exact ⟨p.1, heq, hj.related p (List.mem_of_find?_eq_some hp)⟩

omit [Scalar S] in
theorem Remembers.remember {R : Expr S → Expr S → Prop} {j : Journal S} {e r : Expr S}
    (hj : Remembers options R j) (h : R e r) (hr : R r r) :
    Remembers options R (j.remember e r) := by
  refine ⟨fun p hp => ?_, hj.unspent⟩
  simp only [Journal.remember, List.mem_cons] at hp
  rcases hp with rfl | rfl | hp
  · exact hr
  · exact h
  · exact hj.related p hp

omit [Scalar S] in
theorem yields_spend {R : Expr S → Expr S → Prop} {step : Step S} :
    Yields (Remembers options R) (spend options step) fun allowed _ =>
      options.budget = none → allowed = true := by
  refine Yields.bind .getting fun j' j hj hjj a j'' ha => ?_
  obtain rfl : j' = j := hjj
  split at ha
  case isTrue hb =>
    cases ha
    have hlimit : options.budget ≠ none := by
      intro hn
      rw [hn] at hb
      cases hb
    exact ⟨⟨hj.related, fun hn => absurd hn hlimit⟩, fun hn => absurd hn hlimit⟩
  case isFalse =>
    cases ha
    exact ⟨⟨hj.related, hj.unspent⟩, fun _ => rfl⟩

omit [Scalar S] in
theorem unlimited_remembers (hb : options.budget = none) (R : Expr S → Expr S → Prop) :
    Unlimited options (Remembers options R) where
  unspent hj := hj.unspent hb
  allowed _ := yields_spend.mono fun _ _ _ h => h hb

/-- A stage starts with nothing remembered. -/
theorem Yields.runStage {R : Expr S → Expr S → Prop} {P : Expr S → Prop} {fuel : Nat} {e : Expr S}
    (h : Yields (Remembers options R) (Canonical.settle options stage stage.rules fuel [1] e)
      fun r _ => P r) :
    Yields (Unspent options) (Canonical.runStage options fuel stage e) fun r _ => P r := by
  intro j hj r j' hr
  have hstart : Remembers options R { j with memo := [] } :=
    ⟨fun p hp => absurd hp List.not_mem_nil, hj⟩
  obtain ⟨hj', hP⟩ := h _ hstart r j' hr
  exact ⟨hj'.unspent, hP⟩

namespace Respected

variable {W : Expr S → Prop} {R : Expr S → Expr S → Prop} {fuel : Nat}

/-! An expression on the way is the start itself, or related to the start. -/

theorem domain_of_onward (h : Respected W stage R) {e x : Expr S} (he : W e)
    (hx : x = e ∨ R e x) : W x := by
  rcases hx with rfl | hx
  · exact he
  · exact h.result he hx

theorem onward (h : Respected W stage R) {e x y : Expr S} (hx : x = e ∨ R e x) (hxy : R x y) :
    R e y := by
  rcases hx with rfl | hx
  · exact hxy
  · exact h.trans hx hxy

theorem settleOperands (h : Respected W stage R)
    (hv : ∀ path e, W e → Yields inv (visit path e) fun r _ => R e r) {e : Expr S} (he : W e) :
    Yields inv (settleOperands visit path fuel [e] e) fun r _ => R e r := by
  refine Yields.settleOperands (K := fun _ x => x = e ∨ R e x) (fun seen x hx => ?_) fuel (.inl rfl)
  have hWx := h.domain_of_onward he hx
  refine (Yields.rebuild hv x fun a ha => h.operand hWx ha).mono fun next j _ hb => ?_
  have hnext := h.onward hx (h.rebuilt hWx hb)
  exact ⟨fun _ => hnext, fun _ _ => .inr hnext⟩

theorem settleNode (h : Respected W stage R)
    (hspend : ∀ step, Yields inv (spend options step) fun _ _ => True)
    (hv : ∀ path e, W e → Yields inv (visit path e) fun r _ => R e r) {e : Expr S} (he : W e) :
    Yields inv (settleNode options stage stage.rules visit path fuel e) fun r _ => R e r := by
  unfold Canonical.settleNode
  refine (h.settleOperands hv he).seq fun start hstart => ?_
  refine Yields.applyRules (L := fun _ _ x => R e x) (fun _ _ _ _ hx _ _ => hx)
    (fun _ _ _ hx _ => hx) (fun _ _ _ _ hx _ => (hspend _).mono fun _ _ _ _ => .inr hx)
    (fun seen previous x m hx hm => ?_) fuel hstart
  have hWx := h.result he hx
  have hout := h.rule he hx (mem_of_choose hm).1
  refine (h.settleOperands hv (h.result hWx hout)).mono fun next _ _ hnext => ?_
  have hnext := h.trans (h.trans hx hout) hnext
  exact ⟨fun _ => hnext, fun _ => hnext⟩

theorem settle (h : Respected W stage R) (path : List Nat) {e : Expr S} (he : W e) :
    Yields (Remembers options R) (settle options stage stage.rules fuel path e) fun r _ => R e r :=
  Yields.settle (fun _ _ _ hj hr => by
      obtain ⟨x, hx, hR⟩ := hj.exists_of_recall hr
      exact h.recalled hx hR)
    (fun _ _ _ hj he hr => hj.remember hr (h.self he hr))
    (fun _ hv _ _ _ he => h.settleNode (fun _ => yields_spend.mono fun _ _ _ _ => trivial) hv he)
    fuel path e he

theorem runStage (h : Respected W stage R) {e : Expr S} (he : W e) :
    Yields (Unspent options) (runStage options fuel stage e) fun r _ => R e r :=
  Yields.runStage (h.settle [1] he)

/-- A run ends with an expression that is related to the one it started with. -/
theorem run (h : ∀ stage, Respected W stage R) {e r : Expr S} (he : W e)
    (hr : (run options fuel e).outcome.result? = some r) : R e r := by
  have htrans : ∀ {a b c}, R a b → R b c → R a c := (h .isolate).trans
  have hresult : ∀ {a b}, W a → R a b → W b := (h .isolate).result
  have hstart : Unspent options ({} : Journal S) := fun _ => rfl
  refine of_run hstart ?_ hr
  refine Yields.rounds (K := fun x => x = e ∨ R e x) (P := R e) (fun x hx => .inr hx)
    (fun x hx => ?_) fuel (.inl rfl)
  have hWx := (h .isolate).domain_of_onward he hx
  exact Yields.runStages (A := R x) (B := R x) (C := R e) ((h .isolate).runStage hWx)
    (fun a ha => ((h .normalize).runStage (hresult hWx ha)).mono fun _ _ _ hb => htrans ha hb)
    fun b hb => ((h .collect).runStage (hresult hWx hb)).mono fun c _ _ hc =>
      (h .isolate).onward hx (htrans hb hc)

end Respected

/-! ## Parts that end -/

omit [Scalar S] in
/-- Where a part ends it ends with what it yields. -/
theorem Ends.yields {m : Nat → Running S α} {p q : α → Prop} (hm : Ends inv m p)
    (h : ∀ F, Yields inv (m F) fun a _ => q a) : Ends inv m q := by
  intro j hj
  obtain ⟨F, a, k, heq, hk, -⟩ := hm j hj
  exact ⟨F, a, k, heq, hk, (h F j hj a k heq).2⟩

omit [Scalar S] in
theorem ends_spend_remembers {R : Expr S → Expr S → Prop} (step : Step S) :
    Ends (Remembers options R) (fun _ => spend options step) fun _ => True := by
  refine ends_spend (fun j step hj => ⟨hj.related, hj.unspent⟩)
    (fun j hb hj => ⟨hj.related, fun hn => ?_⟩) step
  rw [hn] at hb
  cases hb

namespace Respected

variable {W : Expr S → Prop} {R : Expr S → Expr S → Prop} {e : Expr S}

/-- An expression is settled if its node is, when it is not remembered. -/
theorem ends_settle_of_node (h : Respected W stage R) (he : W e) {path : List Nat}
    (hnode : Ends (Remembers options R) (fun F => Canonical.settleNode options stage stage.rules
      (Canonical.settle options stage stage.rules F) path F e) fun _ => True) :
    Ends (Remembers options R) (fun F => Canonical.settle options stage stage.rules F path e)
      fun _ => True :=
  ends_settle (fun _ _ _ _ _ => trivial) (fun _ _ hj _ hp => hj.remember hp (h.self he hp))
    (hnode.yields fun _ => h.settleNode (fun _ => yields_spend.mono fun _ _ _ _ => trivial)
      (fun path _ ha => h.settle path ha) he) fun _ _ => trivial

theorem ends_runStage_of_settle (h : Respected W stage R) (he : W e)
    (hsettle : Ends (Remembers options R)
      (fun F => Canonical.settle options stage stage.rules F [1] e) fun _ => True) :
    Ends (Unspent options) (fun F => Canonical.runStage options F stage e) (R e) := by
  have hends : Ends (Unspent options) (fun F => Canonical.runStage options F stage e)
      fun _ => True := by
    intro j hj
    have hstart : Remembers options R { j with memo := [] } :=
      ⟨fun p hp => absurd hp List.not_mem_nil, hj⟩
    obtain ⟨F, r, k, hr, hk, -⟩ := hsettle _ hstart
    exact ⟨F, r, k, hr, hk.unspent, trivial⟩
  exact hends.yields fun _ => h.runStage he

/-- Two relations that a stage respects hold together. -/
theorem and {R' : Expr S → Expr S → Prop} (h : Respected W stage R) (h' : Respected W stage R') :
    Respected W stage fun a b => R a b ∧ R' a b where
  operand := h.operand
  result ha hab := h.result ha hab.1
  trans hab hbc := ⟨h.trans hab.1 hbc.1, h'.trans hab.2 hbc.2⟩
  recalled heq hab := ⟨h.recalled heq hab.1, h'.recalled heq hab.2⟩
  self ha hab := ⟨h.self ha hab.1, h'.self ha hab.2⟩
  rebuilt ha hab := ⟨h.rebuilt ha (hab.mono fun _ _ h => h.1),
    h'.rebuilt ha (hab.mono fun _ _ h => h.2)⟩
  rule ha hab hm := ⟨h.rule ha hab.1 hm, h'.rule ha hab.2 hm⟩

/-- What is respected everywhere is respected on a domain that a stage does not leave. -/
theorem restrict (h : Respected (fun _ => True) stage R)
    (hoperand : ∀ {a b}, W a → b ∈ a.children → W b) (hresult : ∀ {a b}, W a → R a b → W b) :
    Respected W stage R where
  operand := hoperand
  result := hresult
  trans := h.trans
  recalled := h.recalled
  self _ := h.self trivial
  rebuilt _ := h.rebuilt trivial
  rule _ := h.rule trivial

end Respected

end Runs

/-! ## Exact scalars -/

section Exact

variable [ExactScalar S]

theorem isSeen_iff {seen : List (Expr S)} {e : Expr S} : isSeen seen e = true ↔ e ∈ seen := by
  simp [isSeen]

theorem eq_or_mem_of_choose_eq_none {rules : List (Rule S)} {seen : List (Expr S)}
    {previous : Option (Expr S)} {e : Expr S} {m : RuleMatch S}
    (h : choose rules seen previous e = none) (hm : m ∈ ruleMatches e rules) :
    m.output = e ∨ m.output ∈ seen := by
  simpa [isSeen_iff] using beq_or_isSeen_of_choose_eq_none h hm

theorem Remembers.recall {options : Options} {R : Expr S → Expr S → Prop} {j : Journal S}
    {e r : Expr S} (hj : Remembers options R j) (h : j.recall? e = some r) : R e r := by
  obtain ⟨x, hx, hR⟩ := hj.exists_of_recall h
  rwa [← eq_of_beq hx]

end Exact

end TraceCalculus.Canonical
