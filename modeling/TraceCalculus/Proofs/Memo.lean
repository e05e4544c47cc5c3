import TraceCalculus.Proofs.Idempotence
import TraceCalculus.Proofs.Settled

/-! # Remembering changes nothing on expressions of first order

The memo of a stage has an entry for an expression that has been settled, and one more that says
that its settled form is its own. The latter is right where a settled form is one on which no rule
matches (`Expr.Settled`): settling it again without a memo leaves it as it is
(`Canonical.unaided_self`).

So whatever a stage with a memo makes of an expression of first order, a stage without one makes the
same of it (`Canonical.Unaided`), loop by loop and node by node; each entry of the memo says so of
its expression. Whole runs therefore end alike (`Canonical.run_memoize`). A product of two
differentials is turned around by every visit, and there the memo makes a difference.
-/

set_option autoImplicit false

namespace TraceCalculus.Canonical

variable {S : Type} [Scalar S] [NumericScalar S] {e e' r x x' next : Expr S} {stage : Stage}
  {seen seen' : List (Expr S)}

/-- Nothing is remembered, and there is no limit. -/
def forgetting : Options := { memoize := false }

/-- Without a memo `r` is what `e` is settled to. -/
def Unaided (stage : Stage) (e r : Expr S) : Prop :=
  ∀ path, Ends (Unspent forgetting) (fun F => settle forgetting stage stage.rules F path e)
    r.Congruent

/-- Without a memo the loop over the operands ends with `r`. -/
def UnaidedOperands (stage : Stage) (path : List Nat) (seen : List (Expr S)) (x r : Expr S) :
    Prop :=
  Ends (Unspent forgetting)
    (fun F => settleOperands (settle forgetting stage stage.rules F) path F seen x) r.Congruent

/-- Without a memo the loop over the rules ends with `r`. -/
def UnaidedRules (stage : Stage) (path : List Nat) (seen : List (Expr S))
    (previous : Option (Expr S)) (x r : Expr S) : Prop :=
  Ends (Unspent forgetting) (fun F => applyRules forgetting stage stage.rules
    (fun e => settleOperands (settle forgetting stage stage.rules F) path F [e] e) path F seen
    previous x) r.Congruent

theorem alongside_self {j : Journal S} (hj : Unspent forgetting j) : Alongside j j :=
  ⟨⟨hj rfl, hj rfl, Nat.le_refl _⟩, List.forall₂_same.2 fun _ _ => ⟨.refl _, .refl _⟩⟩

/-- What a part ends with, one that mirrors it ends with, too. -/
theorem Ends.mirrored {m m' : Nat → Running S (Expr S)}
    (h : Ends (Unspent forgetting) m r.Congruent)
    (hm : ∀ F, Mirrors Expr.Congruent (m F) (m' F)) : Ends (Unspent forgetting) m' r.Congruent := by
  intro j hj
  obtain ⟨F, a, k, ha, hk, hra⟩ := h j hj
  obtain ⟨a', k', ha', haa, hkk⟩ := hm F j j a k (alongside_self hj) ha (hk rfl)
  exact ⟨F, a', k', ha', fun _ => hkk.left', hra.trans haa⟩

theorem Unaided.congr (h : Unaided stage e r) (he : e.Congruent e') : Unaided stage e' r :=
  fun path => (h path).mirrored fun F => mirrors_settle (.refl _) F path he

/-! ## One node -/

theorem ends_rebuilt (h : Rebuilt (Unaided stage) x next) (path : List Nat) :
    Ends (Unspent forgetting)
      (fun F => rebuild (settle forgetting stage stage.rules F) path x) next.Congruent := by
  have hr : ∀ path (e : Expr S), Rising fun F => settle forgetting stage stage.rules F path e :=
    rising_settle
  cases h with
  | var | scalarVar | literal | null => exact ends_pure (.refl _)
  | differential ha =>
    exact (ha _).bind (hr _ _) (fun _ => rising_const _) fun _ h =>
      ends_pure (.differential h.asOperand)
  | trace ha =>
    exact (ha _).bind (hr _ _) (fun _ => rising_const _) fun _ h => ends_pure h.traced
  | transpose ha =>
    exact (ha _).bind (hr _ _) (fun _ => rising_const _) fun _ h => ends_pure h.transposed
  | add ha hb =>
    exact (ha _).bind (hr _ _) (fun _ => (hr _ _).bind fun _ => rising_const _) fun _ h =>
      (hb _).bind (hr _ _) (fun _ => rising_const _) fun _ h' => ends_pure (h.plus h')
  | sub ha hb =>
    exact (ha _).bind (hr _ _) (fun _ => (hr _ _).bind fun _ => rising_const _) fun _ h =>
      (hb _).bind (hr _ _) (fun _ => rising_const _) fun _ h' => ends_pure (h.minus h')
  | scale ha hb | matMul ha hb =>
    exact (ha _).bind (hr _ _) (fun _ => (hr _ _).bind fun _ => rising_const _) fun _ h =>
      (hb _).bind (hr _ _) (fun _ => rising_const _) fun _ h' => ends_pure (h.times h')

theorem seen_self (seen : List (Expr S)) : List.Forall₂ Expr.Congruent seen seen :=
  List.forall₂_same.2 fun _ _ => .refl _

/-- The loop over the operands ends with what a pass makes of the node, or goes on from there. -/
theorem unaidedOperands_of_pass (h : Rebuilt (Unaided stage) x next) (path : List Nat)
    (hend : ((next == x) = true ∨ isSeen seen next = true) ∧ next = r ∨
      (next == x) = false ∧ isSeen seen next = false ∧
        UnaidedOperands stage path (next :: seen) next r) :
    UnaidedOperands stage path seen x r := by
  refine (ends_rebuilt h path).settleOperands rising_settle (fun next' j hj hc hexit => ?_)
    fun next' hc hne hseen => ?_
  · rw [← hc.beq (.refl x), hj rfl, ← isSeen_congruent (seen_self seen) hc] at hexit
    rcases hend with ⟨-, rfl⟩ | ⟨hne, hseen, -⟩
    · exact hc
    · rw [hne, hseen] at hexit
      rcases hexit with h | h | h <;> cases h
  · rw [← hc.beq (.refl x)] at hne
    rw [← isSeen_congruent (seen_self seen) hc] at hseen
    rcases hend with ⟨h, -⟩ | ⟨-, -, hrest⟩
    · rw [hne, hseen] at h
      rcases h with h | h <;> cases h
    · exact hrest.mirrored fun F => .settleOperands (grows_settle F)
        (fun path {_ _} he => mirrors_settle (.refl _) F path he) F (.cons hc (seen_self seen)) hc

variable {previous : Option (Expr S)} {m : RuleMatch S} {path : List Nat}

theorem UnaidedRules.congr (h : UnaidedRules stage path seen previous x r)
    (hs : List.Forall₂ Expr.Congruent seen seen') (hx : x.Congruent x') :
    UnaidedRules stage path seen' previous x' r :=
  h.mirrored fun F => .applyRules (.refl _) (fun e => .settleOperands (grows_settle F) path F [e] e)
    (fun he => .settleOperands (grows_settle F)
      (fun path {_ _} he => mirrors_settle (.refl _) F path he) F (.cons he .nil) he) F previous hs
    hx

theorem unaidedRules_of_none (hm : choose stage.rules seen previous x = none) :
    UnaidedRules stage path seen previous x x :=
  Ends.shift (by simpa only [applyRules_none hm] using ends_pure (.refl x))

/-- The loop over the rules ends with what the rule makes of the node, or goes on from there. -/
theorem unaidedRules_of_some (hm : choose stage.rules seen previous x = some m)
    (hop : UnaidedOperands stage path [m.output] m.output next)
    (hend : isSeen seen next = true ∧ next = r ∨ isSeen seen next = false ∧
      UnaidedRules stage path (next :: seen) (some m.rule.replacement) next r) :
    UnaidedRules stage path seen previous x r := by
  have hspend : ∀ step : Step S, Ends (Unspent forgetting) (fun _ => spend forgetting step)
      fun allowed => allowed = true := fun step j hj => ⟨0, true, _, spend_of_left rfl, hj, rfl⟩
  refine Ends.applyRules (p := next.Congruent)
    (fun e => .settleOperands rising_settle path [e] e) (fun j hj hexhausted => ?_)
    (fun hnone => ?_) (fun step => (hspend step).mono fun _ h => .inl h) (fun m' hm' => ?_)
    (fun m' next' _ hc hseen => ?_) fun m' next' hm' hc hseen => ?_
  · rw [hj rfl] at hexhausted
    cases hexhausted
  · rw [hm] at hnone
    cases hnone
  · rw [hm] at hm'
    cases hm'
    exact hop
  · rw [← isSeen_congruent (seen_self seen) hc] at hseen
    rcases hend with ⟨-, rfl⟩ | ⟨hns, -⟩
    · exact hc
    · rw [hns] at hseen
      cases hseen
  · rw [← isSeen_congruent (seen_self seen) hc] at hseen
    rw [hm] at hm'
    cases hm'
    rcases hend with ⟨hs, -⟩ | ⟨-, hrest⟩
    · rw [hs] at hseen
      cases hseen
    · exact UnaidedRules.congr hrest (.cons hc (seen_self seen)) hc

/-- A node is settled operands first, and nothing of it is remembered. -/
theorem unaided_of_node
    (h : ∀ path, ∃ x, UnaidedOperands stage path [e] e x ∧ UnaidedRules stage path [x] none x r) :
    Unaided stage e r := by
  intro path
  obtain ⟨x, hop, hrules⟩ := h path
  refine ends_settle (fun _ _ _ hm => by cases hm) (fun _ _ hj _ _ => hj) ?_ fun _ hc => hc
  exact hop.bind (.settleOperands rising_settle path [e] e)
    (fun start => .applyRules (fun x => .settleOperands rising_settle path [x] x) path [start] none
      start) fun _ hc => hrules.congr (.cons hc .nil) hc

/-! ## Settled forms -/

theorem rebuilt_tidied {R : Expr S → Expr S → Prop} (h : ∀ a ∈ e.children, R a a) :
    Rebuilt R e e.tidied := by
  cases e with
  | var name => exact .var name
  | scalarVar name => exact .scalarVar name
  | literal value => exact .literal value
  | null => exact .null
  | differential a =>
    have ha := Rebuilt.differential (h a (.head _))
    rwa [Expr.asOperand_numeric] at ha
  | add a b => exact .add (h a (.head _)) (h b (.tail _ (.head _)))
  | sub a b => exact .sub (h a (.head _)) (h b (.tail _ (.head _)))
  | scale a b => exact .scale (h a (.head _)) (h b (.tail _ (.head _)))
  | matMul a b => exact .matMul (h a (.head _)) (h b (.tail _ (.head _)))
  | trace a => exact .trace (h a (.head _))
  | transpose a => exact .transpose (h a (.head _))

/-- A settled form is its own. -/
theorem unaided_self (hs : r.Settled stage) (hn : r.Neat) (hd : r.Definite) :
    Unaided stage r r := by
  induction r using Expr.children_induction with
  | step r ih =>
    obtain ⟨hroot, hchildren⟩ := Expr.settled_iff.1 hs
    have hnone : choose stage.rules [r] none r = none := by simp [choose, hroot]
    have hself : (r == r) = true := hd r (Expr.self_mem_postOrder r)
    have hrebuilt : Rebuilt (Unaided stage) r r.tidied := rebuilt_tidied fun a ha =>
      ih a ha (hchildren a ha) (hn.of_mem_children ha) (Expr.forall_postOrder_iff.1 hd |>.2 a ha)
    rw [hn.tidied] at hrebuilt
    exact unaided_of_node fun path => ⟨r, unaidedOperands_of_pass hrebuilt path
      (.inl ⟨.inl hself, rfl⟩), unaidedRules_of_none hnone⟩

/-! ## A stage with a memo -/

variable {inv : Journal S → Prop} {options : Options} {fuel : Nat}
  {visit : List Nat → Expr S → Running S (Expr S)}

/-- The loop over the operands ends as it does without a memo, if visiting them does. -/
theorem yields_unaidedOperands (hu : Unlimited options inv)
    (hv : ∀ path e, e.order ≤ 1 → Yields inv (visit path e) fun r _ =>
      Lowering e r ∧ Unaided stage e r) (he : e.order ≤ 1) :
    Yields inv (settleOperands visit path fuel [e] e) fun r _ =>
      ∀ path, UnaidedOperands stage path [e] e r := by
  -- what the rest of the loop ends with the whole loop ends with
  refine Yields.settleOperands (K := fun seen x => x.order ≤ 1 ∧ ∀ path r,
      UnaidedOperands stage path seen x r → UnaidedOperands stage path [e] e r)
    (fun seen x hx => ?_) fuel ⟨he, fun _ _ h => h⟩
  obtain ⟨hox, hwhole⟩ := hx
  refine (Yields.rebuild hv x fun a ha => (order_le_of_mem_children ha).trans hox).mono
    fun next j hj hb => ?_
  have hpass : Rebuilt (Unaided stage) x next := hb.mono fun _ _ h => h.2
  refine ⟨fun hexit path => ?_, fun hne hseen => ⟨?_, fun path r hrest => ?_⟩⟩
  · rw [hu.unspent hj] at hexit
    refine hwhole path next (unaidedOperands_of_pass hpass path (.inl ⟨?_, rfl⟩))
    rcases hexit with h | h | h
    · exact .inl h
    · cases h
    · exact .inr h
  · exact (lowering_of_rebuilt (hb.mono fun _ _ h => h.1)).order_le.trans hox
  · exact hwhole path r (unaidedOperands_of_pass hpass path (.inr ⟨hne, hseen, hrest⟩))

/-- So does settling a node. -/
theorem yields_unaided (hu : Unlimited options inv)
    (hv : ∀ path e, e.order ≤ 1 → Yields inv (visit path e) fun r _ =>
      Settles stage e r ∧ Unaided stage e r) (he : e.order ≤ 1) :
    Yields inv (settleNode options stage stage.rules visit path fuel e) fun r _ =>
      Unaided stage e r := by
  have hop : ∀ {x : Expr S}, x.order ≤ 1 → Yields inv (settleOperands visit path fuel [x] x)
      fun next _ => Lowering x next ∧ ∀ path, UnaidedOperands stage path [x] x next := by
    intro x hx
    refine Yields.mono (.and
      (yields_operandsSettled hu (fun path e he => (hv path e he).mono fun _ _ _ h => h.1) hx)
      (yields_unaidedOperands hu
        (fun path e he => (hv path e he).mono fun _ _ _ h => ⟨h.1.toLowering, h.2⟩) hx)) ?_
    exact fun _ _ _ h => ⟨h.1.1, h.2⟩
  unfold settleNode
  refine (hop he).seq fun start hstart => ?_
  -- what the rest of the loop ends with the whole node is settled to
  refine (hu.applyRules (L := fun seen previous x => Lowering e x ∧ ∀ path r,
      UnaidedRules stage path seen previous x r → UnaidedRules stage path [start] none start r)
    (P := fun r => ∀ path, UnaidedRules stage path [start] none start r)
    (fun seen previous x hx hnone path => ?_) (fun seen previous x m hx hm => ?_) fuel
    ⟨hstart.1, fun _ _ h => h⟩).mono
    fun r _ _ h => unaided_of_node fun path => ⟨start, hstart.2 path, h path⟩
  · exact hx.2 path x (unaidedRules_of_none hnone)
  · obtain ⟨hex, hwhole⟩ := hx
    have hout := lowering_output hex.neat (hex.order_le.trans he) (mem_of_choose hm).1
    refine (hop (hout.order_le.trans (hex.order_le.trans he))).mono fun next _ _ hnext =>
      ⟨fun hseen path => ?_, fun hseen => ⟨?_, fun path r hrest => ?_⟩⟩
    · exact hwhole path next (unaidedRules_of_some hm (hnext.2 path) (.inl ⟨hseen, rfl⟩))
    · exact hex.trans (hout.trans hnext.1)
    · exact hwhole path r (unaidedRules_of_some hm (hnext.2 path) (.inr ⟨hseen, hrest⟩))

/-- What an entry of the memo says. It is asked for by something that compares equal only. -/
def Entry (stage : Stage) (e r : Expr S) : Prop :=
  Settles stage e r ∧ (e.Definite → Unaided stage e r)

theorem settles_self (h : Settles stage e r) : Settles stage r r :=
  ⟨lowering_self h.neat, h.settled⟩

/-- Without a limit a stage ends as it does without a memo. -/
theorem yields_settle_unaided (hb : options.budget = none) (path : List Nat) (he : e.order ≤ 1) :
    Yields (Remembers options (Entry stage)) (settle options stage stage.rules fuel path e)
      fun r _ => Settles stage e r ∧ Unaided stage e r := by
  refine Yields.settle (W := fun e => e.order ≤ 1)
    (R := fun e r => Settles stage e r ∧ Unaided stage e r) (fun j e r hj hr => ?_)
    (fun j e r hj _ hr => ?_) (fun visit hv path fuel e he => ?_) fuel path e he
  · obtain ⟨x, hx, hs, hu⟩ := hj.exists_of_recall hr
    have hc : x.Congruent e := .of_beq hx
    exact ⟨hs.congr hc, (hu (Expr.definite_of_beq hx)).congr hc⟩
  · have hself : Entry stage r r :=
      ⟨settles_self hr.1, unaided_self hr.1.settled hr.1.neat⟩
    exact hj.remember ⟨hr.1, fun _ => hr.2⟩ hself
  · have hu := unlimited_remembers hb (Entry (S := S) stage)
    exact (yields_settles_node hu (fun path e he => (hv path e he).mono fun _ _ _ h => h.1)
      he).and (yields_unaided hu hv he)

/-! ## Whole runs -/

/-- Without a memo a stage makes `r` of `e`. -/
def UnaidedStage (stage : Stage) (e r : Expr S) : Prop :=
  Ends (Unspent forgetting) (fun F => runStage forgetting F stage e) r.Congruent

theorem UnaidedStage.congr (h : UnaidedStage stage e r) (he : e.Congruent e') :
    UnaidedStage stage e' r := by
  intro j hj
  obtain ⟨F, a, k, ha, hk, hra⟩ := h j hj
  obtain ⟨a', k', ha', haa, hkk⟩ :=
    mirrors_runStage (.refl _) F he (alongside_self hj).toAbreast ha (hk rfl)
  exact ⟨F, a', k', ha', fun _ => hkk.left', hra.trans haa⟩

theorem yields_unaidedStage (hb : options.budget = none) (he : e.order ≤ 1) :
    Yields (Unspent options) (runStage options fuel stage e) fun r _ =>
      r.order ≤ 1 ∧ UnaidedStage stage e r := by
  refine ((yields_settle_unaided hb [1] he).runStage).mono fun r _ _ h => ⟨?_, fun j hj => ?_⟩
  · exact h.1.order_le.trans he
  · obtain ⟨F, a, k, ha, hk, hra⟩ := h.2 [1] { j with memo := [] } hj
    exact ⟨F, a, k, ha, hk, hra⟩

theorem yields_unaidedStages (hb : options.budget = none) (he : e.order ≤ 1) :
    Yields (Unspent options) (runStages options fuel e) fun r _ => r.order ≤ 1 ∧
      ∀ e', e.Congruent e' →
        Ends (Unspent forgetting) (fun F => runStages forgetting F e') r.Congruent := by
  refine Yields.runStages (yields_unaidedStage hb he) (B := fun b => b.order ≤ 1 ∧
      ∃ a, UnaidedStage .isolate e a ∧ UnaidedStage .normalize a b)
    (fun a ha => (yields_unaidedStage hb ha.1).mono fun b _ _ hb => ⟨hb.1, a, ha.2, hb.2⟩)
    fun b hb' => (yields_unaidedStage hb hb'.1).mono fun c _ _ hc => ⟨hc.1, fun e' he' => ?_⟩
  obtain ⟨-, a, ha, hab⟩ := hb'
  exact (ha.congr he').runStages (fun a' haa => hab.congr haa) fun b' hbb => hc.2.congr hbb

/-- Rounds without a limit end as they do without a memo. -/
theorem ends_rounds_unaided (hb : options.budget = none) {turns : Nat} {j k : Journal S}
    (hj : Unspent options j) (h : rounds options fuel turns seen e j = .ok r k)
    (hk : k.exhausted = false) (he : e.order ≤ 1)
    (hs : List.Forall₂ Expr.Congruent seen seen') (hee : e.Congruent e') :
    Ends (Unspent forgetting) (fun F => rounds forgetting F F seen' e') r.Congruent := by
  induction turns generalizing seen seen' e e' j with
  | zero => cases h
  | succ turns ih =>
    obtain ⟨next, i, hnext, -, hend⟩ := rounds_succ h hk
    obtain ⟨hi, ho, hstages⟩ := yields_unaidedStages hb he j hj next i hnext
    refine (hstages e' hee).rounds (fun next' j' hj' hc hexit => ?_) fun next' hc hne hseen => ?_
    · rw [hj' rfl, ← hc.beq hee, ← isSeen_congruent hs hc] at hexit
      rcases hend with ⟨-, rfl, -⟩ | ⟨hstop, -⟩
      · exact hc
      · rw [Bool.or_eq_false_iff] at hstop
        rw [hstop.1, hstop.2] at hexit
        rcases hexit with h | h | h <;> cases h
    · rw [← hc.beq hee] at hne
      rw [← isSeen_congruent hs hc] at hseen
      rcases hend with ⟨hstop, -⟩ | ⟨-, hrest⟩
      · rw [hne, hseen] at hstop
        cases hstop
      · exact ih hi hrest ho (.cons hc hs) hc

omit [NumericScalar S] in
/-- What rounds end with compares equal to something, and so to itself. -/
theorem beq_self_of_rounds [CongruentScalar S] {turns : Nat} {j k : Journal S}
    (h : rounds options fuel turns seen e j = .ok r k) (hk : k.exhausted = false) :
    (r == r) = true := by
  induction turns generalizing seen e j with
  | zero => cases h
  | succ turns ih =>
    obtain ⟨next, i, -, -, ⟨hs, rfl, rfl⟩ | ⟨-, hrest⟩⟩ := rounds_succ h hk
    · rw [Bool.or_eq_true] at hs
      rcases hs with hs | hs
      · rwa [← Expr.Congruent.beq (.refl next) (.of_beq hs)] at hs
      · obtain ⟨y, -, hy⟩ := List.any_eq_true.1 hs
        rwa [Expr.Congruent.beq (.of_beq hy) (.refl next)] at hy
    · exact ih hrest

/-- An expression that multiplies no two differentials with each other has one canonical form,
whether subexpressions are remembered or not. -/
theorem run_memoize {fuel fuel' : Nat} {r' : Expr S} (he : e.order ≤ 1)
    (h : (run { memoize := true } fuel e).outcome = .converged r)
    (h' : (run { memoize := false } fuel' e).outcome = .converged r') : (r == r') = true := by
  obtain ⟨k, hr, hk⟩ := rounds_of_converged h
  obtain ⟨k', hr', hk'⟩ := rounds_of_converged h'
  have hstart : ∀ options : Options, Unspent options ({} : Journal S) := fun _ _ => rfl
  obtain ⟨F, a, i, ha, -, hra⟩ := ends_rounds_unaided rfl (hstart _) hr hk he (seen_self [e])
    (.refl e) {} (hstart _)
  -- the run without a memo ends with `a`, whatever the fuel
  have hlarge := prolongs_rounds (Nat.le_max_left F fuel') (Nat.le_max_left F fuel') [e] e {} a i ha
  have hlarge' :=
    prolongs_rounds (Nat.le_max_right F fuel') (Nat.le_max_right F fuel') [e] e {} r' k' hr'
  have heq : a = r' := by
    have heq := hlarge.symm.trans hlarge'
    cases heq
    rfl
  rw [heq] at hra
  rw [← Expr.Congruent.beq (.refl r) hra]
  exact beq_self_of_rounds hr hk

/-- Two runs that converge, and whether they do to the same. -/
def agree : Outcome S → Outcome S → Option Bool
  | .converged r, .converged r' => some (r == r')
  | .converged _, .exhausted _ | .converged _, .outOfFuel | .exhausted _, _ | .outOfFuel, _ => none

omit [NumericScalar S] in
theorem exists_of_agree {a b : Outcome S} {c : Bool} (h : agree a b = some c) :
    ∃ r r', a = .converged r ∧ b = .converged r' ∧ (r == r') = c := by
  unfold agree at h
  split at h
  · cases h
    exact ⟨_, _, rfl, rfl, rfl⟩
  all_goals cases h

/-- A differential in a product with a sum. -/
def spreadSum : Expr Int :=
  .trace (.matMul (.var "A")
    (.add (.differential (.var "X")) (.transpose (.differential (.var "X")))))

theorem run_memoize_spreadSum :
    ∃ r r', (run { memoize := true } 30 spreadSum).outcome = .converged r ∧
      (run { memoize := false } 30 spreadSum).outcome = .converged r' ∧ (r == r') = true := by
  have hends : (agree (run { memoize := true } 30 spreadSum).outcome
      (run { memoize := false } 30 spreadSum).outcome).isSome = true := by
    decide +kernel
  obtain ⟨c, hc⟩ := Option.isSome_iff_exists.1 hends
  obtain ⟨r, r', hr, hr', -⟩ := exists_of_agree hc
  exact ⟨r, r', hr, hr', run_memoize (by decide) hr hr'⟩

/-- Two differentials that are multiplied with each other. -/
def twoFactors : Expr Int :=
  .trace (.sub (.matMul (.differential (.var "X")) (.differential (.var "Y"))) (.var "B"))

/-- Each visit turns such a product around, and with a memo there is one visit less. -/
theorem run_memoize_twoFactors_differ :
    ∃ r r', (run { memoize := true } 30 twoFactors).outcome = .converged r ∧
      (run { memoize := false } 30 twoFactors).outcome = .converged r' ∧ (r == r') = false :=
  exists_of_agree (by decide +kernel)

end TraceCalculus.Canonical
