import TraceCalculus.Proofs.SettledTraces

/-! # The canonical form of a trace of a sum

Over exact scalars a round makes one expression of an expression of first order (`Canonical.Round`),
and a run that ends has gone from round to round to an expression that rounds keep
(`Canonical.reaches_of_rounds`). So where the first round makes the same of two expressions, their
runs end with the same.

That is how the traces of two terms are added, and the trace of their sum is taken
(`Canonical.exists_round_traced_plus`). Where there are differentials, the first stage splits the
trace of the sum. Where there are none, the sum stays in the trace until the last stage, and by then
each of its terms has become what the stages make of the term by itself, unless the terms have been
folded before: then each of the two ways has folded them.
-/

set_option autoImplicit false

namespace TraceCalculus

open TraceCalculus.Expr (Neat Lower Simplified)
open Relation (ReflTransGen)

namespace Canonical

variable {S : Type} [ExactScalar S] {a b e r r' t u x y : Expr S} {stage : Stage}

/-! ## Rounds -/

/-- A round makes `r` of `e`. -/
def Round (e r : Expr S) : Prop :=
  ∃ a b, Unaided .isolate e a ∧ Unaided .normalize a b ∧ Unaided .collect b r

theorem Round.unique (h : Round e r) (h' : Round e r') : r = r' := by
  obtain ⟨a, b, ha, hb, hr⟩ := h
  obtain ⟨a', b', ha', hb', hr'⟩ := h'
  obtain rfl := ha.unique ha'
  obtain rfl := hb.unique hb'
  exact hr.unique hr'

theorem Unaided.lowering (h : Unaided stage e r) (he : Regular e) : Lowering e r :=
  (h.settles he.order_le).toLowering

theorem Unaided.regular (h : Unaided stage e r) (he : Regular e) : Regular r :=
  (h.lowering he).regular he

theorem Round.lowering (h : Round e r) (he : Regular e) : Lowering e r := by
  obtain ⟨a, b, ha, hb, hr⟩ := h
  have hrega := ha.regular he
  exact ((ha.lowering he).trans (hb.lowering hrega)).trans (hr.lowering (hb.regular hrega))

theorem yields_round {options : Options} {fuel : Nat} (hb : options.budget = none)
    (he : e.order ≤ 1) :
    Yields (Unspent options) (runStages options fuel e) fun r _ => Round e r := by
  have hstage : ∀ {stage : Stage} {x : Expr S}, x.order ≤ 1 →
      Yields (Unspent options) (runStage options fuel stage x) fun r _ =>
        r.order ≤ 1 ∧ Unaided stage x r := fun {stage x} hx =>
    (yields_settle_unaided hb [1] hx).runStage.mono fun r _ _ h => ⟨h.1.order_le.trans hx, h.2⟩
  exact Yields.runStages (B := fun b => b.order ≤ 1 ∧
      ∃ a, Unaided .isolate e a ∧ Unaided .normalize a b) (hstage he)
    (fun a ha => (hstage ha.1).mono fun b _ _ hb => ⟨hb.1, a, ha.2, hb.2⟩)
    fun b ⟨hb, a, ha, hab⟩ => (hstage hb).mono fun r _ _ hr => ⟨a, b, ha, hab, hr.2⟩

/-- Rounds end with an expression that they keep. -/
theorem reaches_of_rounds {options : Options} {fuel turns : Nat} {j k : Journal S}
    {seen : List (Expr S)} (hb : options.budget = none) (hj : Unspent options j)
    (h : rounds options fuel turns seen e j = .ok r k) (hk : k.exhausted = false)
    (he : Regular e) (hseen : ∀ y ∈ seen, y = e ∨ Lower e y) :
    ReflTransGen Round e r ∧ Round r r := by
  induction turns generalizing seen e j with
  | zero => cases h
  | succ turns ih =>
    obtain ⟨next, i, hnext, -, hend⟩ := rounds_succ h hk
    obtain ⟨hi, hround⟩ := yields_round hb he.order_le j hj next i hnext
    have hlow := hround.lowering he
    by_cases hstay : next = e
    · subst hstay
      rcases hend with ⟨-, rfl, -⟩ | ⟨hstop, -⟩
      · exact ⟨.refl, hround⟩
      · simp at hstop
    · -- below the current expression the run has not been
      have hlower : Lower next e := hlow.lower he hstay
      rcases hend with ⟨hstop, -⟩ | ⟨-, hrest⟩
      · have hmem : next ∈ seen := by simpa [isSeen, hstay] using hstop
        rcases hseen next hmem with heq | hup
        · exact absurd heq hstay
        · exact absurd (hlower.trans hup) (Expr.wellFounded_lower.irrefl.irrefl _)
      · have hall : ∀ y ∈ next :: seen, y = next ∨ Lower next y := by
          refine List.forall_mem_cons.2 ⟨.inl rfl, fun y hy => .inr ?_⟩
          exact (hseen y hy).elim (fun heq => heq ▸ hlower) hlower.trans
        obtain ⟨hreach, hkeep⟩ := ih hi hrest (hlow.regular he) hall
        exact ⟨.head hround hreach, hkeep⟩

/-- A run without a limit ends with an expression that rounds lead to and keep. -/
theorem reaches_of_run {memoize : Bool} {fuel : Nat} (he : Regular e)
    (h : (run ⟨none, memoize⟩ fuel e).outcome.result? = some r) :
    ReflTransGen Round e r ∧ Round r r := by
  have hstart : Unspent ⟨none, memoize⟩ ({} : Journal S) := fun _ => rfl
  unfold run at h
  split at h
  case h_1 => cases h
  case h_2 result k hrounds =>
    obtain ⟨hk, -⟩ := Yields.rounds (K := Regular) (fun _ hx => hx) (fun x hx =>
      (yields_round rfl hx.order_le).mono fun _ _ _ hr => (hr.lowering hx).regular hx)
      fuel he {} hstart result k hrounds
    have hreach := reaches_of_rounds rfl hstart hrounds (hk rfl) he (by simp)
    simp only [hk rfl, Bool.false_eq_true, if_false] at h
    cases h
    exact hreach

theorem eq_of_reaches (hkeep : Round x x) (h : ReflTransGen Round x r) : r = x := by
  induction h with
  | refl => rfl
  | tail _ hstep ih =>
    subst ih
    exact hstep.unique hkeep

/-- What the first round makes the same of ends alike. -/
theorem eq_of_round {e' : Expr S} (h : Round e x) (h' : Round e' x)
    (hr : ReflTransGen Round e r ∧ Round r r) (hr' : ReflTransGen Round e' r' ∧ Round r' r') :
    r = r' := by
  -- both ends are reached from what the first round makes
  have hfrom : ∀ {e r : Expr S}, Round e x → ReflTransGen Round e r → Round r r →
      ReflTransGen Round x r := by
    intro e r h hreach hkeep
    rcases hreach.cases_head with rfl | ⟨y, hy, hrest⟩
    · exact h.unique hkeep ▸ .refl
    · exact h.unique hy ▸ hrest
  have hunique : Relator.RightUnique (Round (S := S)) := fun _ _ _ h h' => h.unique h'
  rcases ReflTransGen.total_of_right_unique hunique (hfrom h hr.1 hr.2)
    (hfrom h' hr'.1 hr'.2) with hreach | hreach
  · exact (eq_of_reaches hr.2 hreach).symm
  · exact eq_of_reaches hr'.2 hreach

/-! ## Traces of two terms -/

/-- `a` is the settled form of `x`, and `t` that of its trace. -/
structure Traces (stage : Stage) (x a t : Expr S) : Prop where
  regular : Regular x
  settled : Unaided stage x a
  traced : Unaided stage a.traced t

theorem Regular.plus (hx : Regular x) (hy : Regular y) : Regular (x + y) :=
  ⟨hx.neat.plus hy.neat, ((Expr.plus_add x y).falls hx.neat).order_le.trans
    (max_le hx.order_le hy.order_le)⟩

theorem exists_traces (stage : Stage) (hx : Regular x) : ∃ a t, Traces stage x a t := by
  obtain ⟨a, ha⟩ := exists_unaided stage hx
  obtain ⟨t, ht⟩ := exists_unaided stage (ha.regular hx).traced
  exact ⟨a, t, hx, ha, ht⟩

namespace Traces

variable {a' b' t' u' : Expr S} {next : Stage}

theorem result (h : Traces stage x a t) : Regular a := h.settled.regular h.regular

theorem unaided (h : Traces stage x a t) : Unaided stage x.traced t :=
  unaided_traced h.regular h.settled h.traced

theorem order_eq_zero (h : Traces stage x a t) (ha : a.order = 0) : t.order = 0 := by
  have hle := (h.traced.lowering h.result.traced).order_le
  have := (Expr.tracing_traced a).falls.order_le
  simp only [Expr.order] at this
  omega

/-- The next stage makes the same of the trace. -/
theorem unaided_next (h : Traces stage x a t) (h' : Traces next a a' t') (hstage : stage ≠ .collect)
    (hnext : next ≠ .isolate) (ho : a.order = 0) : Unaided next t t' :=
  Canonical.unaided_next hstage hnext h.result ho
    (h.settled.settles h.regular.order_le).settled h.traced h'.settled h'.traced

/-- The trace of the sum is settled to the sum of the traces, or it stays and has no
differentials. -/
theorem unaided_plus (h : Traces stage x a t) (h' : Traces stage y b u)
    (hc : stage = .collect → a.order = 0 ∧ b.order = 0) :
    Unaided stage (x + y).traced (t + u) ∨
      stage ≠ .collect ∧ (a.order = 0 ∧ b.order = 0) ∧
        Unaided stage (x + y).traced (a + b).traced := by
  have hplus : Unaided stage (x + y) (a + b) := by
    refine Canonical.unaided_plus h.regular h'.regular h.settled h'.settled
      (Stage.ruleMatches_add (or_iff_not_imp_left.2 fun hs => ?_))
    obtain ⟨ha, hb⟩ := hc (not_not.1 hs)
    simp [ha, hb]
  have hreg := h.regular.plus h'.regular
  refine (unaided_traced_plus h.result h'.result (h.settled.settles h.regular.order_le).settled
    (h'.settled.settles h'.regular.order_le).settled h.traced h'.traced hc).imp
    (unaided_traced hreg hplus) fun ⟨hs, ho, hstay⟩ => ⟨hs, ho, unaided_traced hreg hplus hstay⟩

/-- So is the sum of the traces. -/
theorem unaided_traced_plus_traced (h : Traces stage x a t) (h' : Traces stage y b u)
    (hr : stage ≠ .collect ∨ (Expr.add t u).order = 0) :
    Unaided stage (x.traced + y.traced) (t + u) :=
  Canonical.unaided_plus h.regular.traced h'.regular.traced h.unaided h'.unaided
    (Stage.ruleMatches_add hr)

end Traces

/-- The first round makes the same of the sum of two traces and of the trace of the sum. -/
theorem exists_round_traced_plus (hx : Regular x) (hy : Regular y) :
    ∃ r, Round (x.traced + y.traced) r ∧ Round (x + y).traced r := by
  obtain ⟨a₁, t₁, hx₁⟩ := exists_traces .isolate hx
  obtain ⟨b₁, u₁, hy₁⟩ := exists_traces .isolate hy
  obtain ⟨a₂, t₂, hx₂⟩ := exists_traces .normalize hx₁.result
  obtain ⟨b₂, u₂, hy₂⟩ := exists_traces .normalize hy₁.result
  obtain ⟨a₃, t₃, hx₃⟩ := exists_traces .collect hx₂.result
  obtain ⟨b₃, u₃, hy₃⟩ := exists_traces .collect hy₂.result
  have hsum₁ : Unaided .isolate (x.traced + y.traced) (t₁ + u₁) :=
    hx₁.unaided_traced_plus_traced hy₁ (.inl nofun)
  have hreg₁ : Regular (t₁ + u₁) := hsum₁.regular (hx.traced.plus hy.traced)
  rcases hx₁.unaided_plus hy₁ nofun with hsplit₁ | ⟨-, ⟨hoa₁, hob₁⟩, hstay₁⟩
  · obtain ⟨s, hs⟩ := exists_unaided .normalize hreg₁
    obtain ⟨r, hr⟩ := exists_unaided .collect (hs.regular hreg₁)
    exact ⟨r, ⟨_, s, hsum₁, hs, hr⟩, ⟨_, s, hsplit₁, hs, hr⟩⟩
  -- without differentials the terms go on by themselves
  have hsum₂ : Unaided .normalize (t₁ + u₁) (t₂ + u₂) :=
    unaided_plus (hx₁.traced.regular hx₁.result.traced) (hy₁.traced.regular hy₁.result.traced)
      (hx₁.unaided_next hx₂ nofun nofun hoa₁) (hy₁.unaided_next hy₂ nofun nofun hob₁)
      (Stage.ruleMatches_add (.inl nofun))
  have hreg₂ : Regular (t₂ + u₂) := hsum₂.regular hreg₁
  rcases hx₂.unaided_plus hy₂ nofun with hsplit₂ | ⟨-, ⟨hoa₂, hob₂⟩, hstay₂⟩
  · obtain ⟨r, hr⟩ := exists_unaided .collect hreg₂
    exact ⟨r, ⟨_, _, hsum₁, hsum₂, hr⟩, ⟨_, _, hstay₁, hsplit₂, hr⟩⟩
  have hoa₃ : a₃.order = 0 := Nat.le_zero.1 (hoa₂ ▸ (hx₃.settled.lowering hx₂.result).order_le)
  have hob₃ : b₃.order = 0 := Nat.le_zero.1 (hob₂ ▸ (hy₃.settled.lowering hy₂.result).order_le)
  have hsum₃ : Unaided .collect (t₂ + u₂) (t₃ + u₃) :=
    unaided_plus (hx₂.traced.regular hx₂.result.traced) (hy₂.traced.regular hy₂.result.traced)
      (hx₂.unaided_next hx₃ nofun nofun hoa₂) (hy₂.unaided_next hy₃ nofun nofun hob₂)
      (Stage.ruleMatches_add (.inr (by simp [hx₃.order_eq_zero hoa₃, hy₃.order_eq_zero hob₃])))
  rcases hx₃.unaided_plus hy₃ (fun _ => ⟨hoa₃, hob₃⟩) with hsplit₃ | ⟨hc, -⟩
  · exact ⟨_, ⟨_, _, hsum₁, hsum₂, hsum₃⟩, ⟨_, _, hstay₁, hstay₂, hsplit₃⟩⟩
  · exact absurd rfl hc

/-! ## Runs -/

end Canonical

namespace Expr

variable {S : Type} [ExactScalar S] {e : Expr S}

/-- No product multiplies two differentials with each other. -/
def SingleDifferentials (e : Expr S) : Prop :=
  ∀ a b, .matMul a b ∈ e.postOrder → a.hasDifferential = false ∨ b.hasDifferential = false

omit [ExactScalar S] in
theorem SingleDifferentials.of_mem_children {a : Expr S} (h : e.SingleDifferentials)
    (ha : a ∈ e.children) : a.SingleDifferentials :=
  fun x y hxy => h x y (mem_postOrder_of_mem_children ha hxy)

theorem SingleDifferentials.order_le (h : e.SingleDifferentials) (hn : e.Neat) : e.order ≤ 1 := by
  induction e with
  | var | scalarVar | literal | null => exact Nat.zero_le 1
  | differential a ih => exact max_le le_rfl (ih (h.of_mem_children (.head _)) hn)
  | add a b iha ihb | sub a b iha ihb =>
    exact max_le (iha (h.of_mem_children (.head _)) hn.1)
      (ihb (h.of_mem_children (.tail _ (.head _))) hn.2.1)
  | scale k b _ ihb =>
    have hb := ihb (h.of_mem_children (.tail _ (.head _))) hn.2.1
    have hk := (order_factors_of_isScalar hn.2.2.scalar).1
    simp only [order]
    omega
  | matMul a b iha ihb =>
    have ha := iha (h.of_mem_children (.head _)) hn.1
    have hb := ihb (h.of_mem_children (.tail _ (.head _))) hn.2.1
    have hfactor := (h a b (self_mem_postOrder _)).imp order_eq_zero_iff.2 order_eq_zero_iff.2
    simp only [order]
    omega
  | trace a ih | transpose a ih => exact ih (h.of_mem_children (.head _)) hn.1

end Expr

namespace Canonical

variable {S : Type} [ExactScalar S] {A B r r' : Expr S}

/-- The sum of two traces and the trace of the sum have one canonical form. What stands in a
differential does not matter, and there may be traces in the terms. -/
theorem run_traced_plus {memoize memoize' : Bool} {fuel fuel' : Nat} (hA : A.Simplified)
    (hB : B.Simplified) (hdA : A.SingleDifferentials) (hdB : B.SingleDifferentials)
    (h : (run ⟨none, memoize⟩ fuel (A.traced + B.traced)).outcome.result? = some r)
    (h' : (run ⟨none, memoize'⟩ fuel' (A + B).traced).outcome.result? = some r') : r = r' := by
  have hregA : Regular A := ⟨hA.neat, hdA.order_le hA.neat⟩
  have hregB : Regular B := ⟨hB.neat, hdB.order_le hB.neat⟩
  obtain ⟨x, hx, hx'⟩ := exists_round_traced_plus hregA hregB
  exact eq_of_round hx hx' (reaches_of_run (hregA.traced.plus hregB.traced) h)
    (reaches_of_run (hregA.plus hregB).traced h')

/-- Twice a product with a differential. -/
def doubledProduct : Expr Int :=
  .scale (.literal 2) (.matMul (.var "A") (.differential (.var "X")))

/-- A transpose beside a product. -/
def plainSum : Expr Int := .add (.transpose (.var "B")) (.matMul (.var "B") (.var "C"))

theorem run_traced_plus_doubledProduct_plainSum :
    ∃ r r',
      (run ⟨none, true⟩ 12 (doubledProduct.traced + plainSum.traced)).outcome.result? = some r ∧
      (run ⟨none, true⟩ 12 (doubledProduct + plainSum).traced).outcome.result? = some r' ∧
      r = r' := by
  have hends : ((run ⟨none, true⟩ 12
      (doubledProduct.traced + plainSum.traced)).outcome.result?).isSome = true := by
    decide +kernel
  have hends' : ((run ⟨none, true⟩ 12
      (doubledProduct + plainSum).traced).outcome.result?).isSome = true := by
    decide +kernel
  obtain ⟨r, hr⟩ := Option.isSome_iff_exists.1 hends
  obtain ⟨r', hr'⟩ := Option.isSome_iff_exists.1 hends'
  have hsimplified : ∀ e ∈ [doubledProduct, plainSum], e.Simplified := by
    unfold Expr.Simplified
    decide +kernel
  refine ⟨r, r', hr, hr', run_traced_plus (hsimplified _ (.head _))
    (hsimplified _ (.tail _ (.head _))) (fun a b hab => .inl ?_) (fun a b hab => .inl ?_) hr hr'⟩
  · obtain ⟨rfl, -⟩ : a = .var "A" ∧ b = .differential (.var "X") := by
      simpa [doubledProduct, Expr.postOrder] using hab
    rfl
  · obtain ⟨rfl, -⟩ : a = .var "B" ∧ b = .var "C" := by
      simpa [plainSum, Expr.postOrder] using hab
    rfl

end Canonical

end TraceCalculus
