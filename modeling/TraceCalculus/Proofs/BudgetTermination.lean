import TraceCalculus.Proofs.Budget
import TraceCalculus.Proofs.Enumeration

/-! # Every run ends

No loop of a run goes back to an expression it has seen, and what it can come to is among finitely
many expressions, so every loop ends (`Canonical.Confined`). That is so because nothing becomes more
expensive in a run; and since operands cost less than their node, the recursion ends, too.

This takes that an expression that comes back is found to be one that was seen, and so that no number
appears in the run that differs from itself. What may appear is what `Canonical.Arises` says: all
that rules and rebuilding make of the expression, in whatever order. So a run without a limit
converges (`Canonical.run_converges`), and with a limit it ends after at most that many steps
(`Canonical.run_ends_within`).
-/

set_option autoImplicit false

namespace TraceCalculus.Canonical

variable {S : Type} [Scalar S]

/-! ## What appears in a run -/

/-- What a run may have made of an expression at some point, in whatever order it is worked on: nodes
are built again over what their operands have come to, and any rule is applied. -/
inductive Reaches : Expr S → Expr S → Prop
  | refl (e : Expr S) : Reaches e e
  | trans {a b c : Expr S} (h : Reaches a b) (h' : Reaches b c) : Reaches a c
  /-- What was settled for an expression is remembered for those that compare equal. -/
  | recalled {a a' b : Expr S} (heq : (a == a') = true) (h : Reaches a b) : Reaches a' b
  | rebuilt {a b : Expr S} (h : Rebuilt Reaches a b) : Reaches a b
  | rule {stage : Stage} {a : Expr S} {m : RuleMatch S} (hm : m ∈ ruleMatches a stage.rules) :
      Reaches a m.output

/-- What may appear in a run on `e`: the expression itself, operands of what appears, and what that
may come to. -/
inductive Arises (e : Expr S) : Expr S → Prop
  | start : Arises e e
  | operand {a b : Expr S} (h : Arises e a) (hb : b ∈ a.children) : Arises e b
  | reached {a b : Expr S} (h : Arises e a) (hab : Reaches a b) : Arises e b

/-- Every number that may appear in a run on `e` compares equal to itself: none is something that is
not a number. -/
def StaysDefinite (e : Expr S) : Prop := ∀ x, Arises e (.literal x) → (x == x) = true

theorem respected_reaches (stage : Stage) :
    Respected (fun _ => True) stage (Reaches : Expr S → Expr S → Prop) where
  operand _ _ := trivial
  result _ _ := trivial
  trans := .trans
  recalled := .recalled
  self _ _ := .refl _
  rebuilt _ := .rebuilt
  rule _ _ := .rule

theorem Arises.trans {a b c : Expr S} (h : Arises a b) (h' : Arises b c) : Arises a c := by
  induction h' with
  | start => exact h
  | operand _ hb ih => exact ih.operand hb
  | reached _ hr ih => exact ih.reached hr

theorem StaysDefinite.arises {a b : Expr S} (h : StaysDefinite a) (hb : Arises a b) :
    StaysDefinite b :=
  fun x hx => h x (hb.trans hx)

variable [NumericScalar S]

theorem StaysDefinite.beq_self {e : Expr S} (h : StaysDefinite e) : (e == e) = true := by
  refine Expr.beq_self_iff.2 fun x hx => h x ?_
  exact Expr.forall_postOrder_of_inherited (fun ha hb => ha.operand hb) .start _ hx

/-! ## Loops that keep to finitely many expressions -/

variable {W : Expr S → Prop} {stage : Stage} {R : Expr S → Expr S → Prop} {w : Expr S → Nat}
  {inv : Journal S → Prop} {options : Options} {e x : Expr S}

/-- A stage that keeps to finitely many expressions, and under which the measure `w` never goes up
and, once an expression has been worked on, goes down to its operands. -/
structure Confined (W : Expr S → Prop) (stage : Stage) (R : Expr S → Expr S → Prop)
    (w : Expr S → Nat) : Prop extends Respected W stage R where
  finite : ∀ {a}, W a → ∃ l : List (Expr S), ∀ b, R a b → ∃ y ∈ l, (b == y) = true
  measure_le : ∀ {a b}, R a b → w b ≤ w a
  operand_le : ∀ {a b}, b ∈ a.children → w b ≤ w a
  operand_lt : ∀ {a b c}, R a b → c ∈ b.children → w c < w b

/-- What `e` is related to has been seen or is still on the list. -/
def Remaining (R : Expr S → Expr S → Prop) (e : Expr S) (seen rest : List (Expr S)) : Prop :=
  ∀ r, R e r → isSeen seen r = true ∨ ∃ y ∈ rest, (r == y) = true

/-- Something new is struck off the list. -/
theorem Remaining.visit {seen rest : List (Expr S)} (h : Remaining R e seen rest) (hx : R e x)
    (hs : isSeen seen x = false) :
    ∃ rest', rest'.length < rest.length ∧ Remaining R e (x :: seen) rest' := by
  obtain ⟨y, hy, hxy⟩ := (h x hx).resolve_left (by simp [hs])
  refine ⟨rest.filter fun z => !(x == z), ?_, fun r hr => ?_⟩
  · exact List.length_filter_lt_length_iff_exists.2 ⟨y, hy, by simp [hxy]⟩
  · rcases h r hr with hseen | ⟨z, hz, hrz⟩
    · exact .inl (List.any_eq_true.2 (by
        obtain ⟨q, hq, hqr⟩ := List.any_eq_true.1 hseen
        exact ⟨q, .tail _ hq, hqr⟩))
    · cases hxz : x == z with
      | false => exact .inr ⟨z, List.mem_filter.2 ⟨hz, by simp [hxz]⟩, hrz⟩
      | true =>
        refine .inl (List.any_eq_true.2 ⟨x, .head _, ?_⟩)
        rwa [Expr.Congruent.beq (.refl x) (.of_beq hrz)]

namespace Confined

variable {visit : Nat → List Nat → Expr S → Running S (Expr S)}

omit [NumericScalar S] in
theorem exists_remaining (h : Confined W stage R w) (he : W e) (seen : List (Expr S)) :
    ∃ rest, Remaining R e seen rest := by
  obtain ⟨l, hl⟩ := h.finite he
  exact ⟨l, fun r hr => .inr (hl r hr)⟩

/-- The operands are settled after as many passes as there are expressions on the list. -/
theorem ends_settleOperands (h : Confined W stage R w)
    (hr : ∀ path e, Rising fun F => visit F path e)
    (hy : ∀ F path e, W e → Yields inv (visit F path e) fun r _ => R e r) {path : List Nat}
    (he : W e) (hends : ∀ c, c = e ∨ R e c → ∀ a ∈ c.children, ∀ path,
      Ends inv (fun F => visit F path a) fun _ => True)
    {seen rest : List (Expr S)} (hrest : Remaining R e seen rest) (hx : x = e ∨ R e x) :
    Ends inv (fun F => settleOperands (visit F) path F seen x) fun _ => True := by
  induction hn : rest.length using Nat.strong_induction_on generalizing x seen rest with
  | _ n ih =>
    have hWx := h.domain_of_onward he hx
    have hpass : Ends inv (fun F => rebuild (visit F) path x) (Rebuilt R x) :=
      (Ends.rebuild hr (hends x hx) path).yields fun F =>
        Yields.rebuild (hy F) x fun a ha => h.operand hWx ha
    refine hpass.settleOperands hr (fun _ _ _ _ _ => trivial) fun next hnext _ hs => ?_
    have hR := h.onward hx (h.rebuilt hWx hnext)
    obtain ⟨rest', hlt, hrest'⟩ := hrest.visit hR hs
    exact ih rest'.length (hn ▸ hlt) hrest' (.inr hR) rfl

/-- At most as many rules are applied to a node as there are expressions on the list. -/
theorem ends_applyRules (h : Confined W stage R w) {operands : Nat → Expr S → Running S (Expr S)}
    (hr : ∀ e, Rising fun F => operands F e)
    (hy : ∀ F e, W e → Yields inv (operands F e) fun r _ => R e r)
    (hspend : ∀ step : Step S, Ends inv (fun _ => spend options step) fun _ => True)
    {path : List Nat} (he : W e)
    (hends : ∀ c, R e c → Ends inv (fun F => operands F c) fun _ => True)
    {seen rest : List (Expr S)} (hrest : Remaining R e seen rest) (hx : R e x)
    (previous : Option (Expr S)) :
    Ends inv (fun F => applyRules options stage stage.rules (operands F) path F seen previous x)
      fun _ => True := by
  induction hn : rest.length using Nat.strong_induction_on generalizing x seen rest previous with
  | _ n ih =>
    have hout : ∀ m, choose stage.rules seen previous x = some m → R e m.output :=
      fun m hc => h.trans hx (h.rule he hx (mem_of_choose hc).1)
    refine Ends.applyRules (p := R e) hr (fun _ _ _ => trivial) (fun _ => trivial)
      (fun step => (hspend step).mono fun _ h => .inr h) (fun m hc => ?_)
      (fun _ _ _ _ _ => trivial) fun m next hc hR hs => ?_
    · have hm := hout m hc
      exact ((hends m.output hm).yields fun F => hy F _ (h.result he hm)).mono fun _ => h.trans hm
    · obtain ⟨rest', hlt, hrest'⟩ := hrest.visit hR hs
      exact ih rest'.length (hn ▸ hlt) hrest' hR _ rfl

/-- A node is settled, if the operands of all nodes it goes through can be settled. -/
theorem ends_settleNode (h : Confined W stage R w)
    (hr : ∀ path e, Rising fun F => visit F path e)
    (hy : ∀ F path e, W e → Yields inv (visit F path e) fun r _ => R e r)
    (hspend : ∀ step : Step S, Ends inv (fun _ => spend options step) fun _ => True)
    {path : List Nat} (he : W e)
    (hends : ∀ c, c = e ∨ R e c → ∀ a ∈ c.children, ∀ path,
      Ends inv (fun F => visit F path a) fun _ => True) :
    Ends inv (fun F => settleNode options stage stage.rules (visit F) path F e) fun _ => True := by
  have hro : ∀ x, Rising fun F => settleOperands (visit F) path F [x] x :=
    fun x => .settleOperands hr path [x] x
  have hyo : ∀ F x, W x → Yields inv (settleOperands (visit F) path F [x] x) fun r _ => R x r :=
    fun F x hx => h.settleOperands (hy F) hx
  have hop : ∀ x, x = e ∨ R e x →
      Ends inv (fun F => settleOperands (visit F) path F [x] x) fun _ => True := by
    intro x hx
    have hWx := h.domain_of_onward he hx
    obtain ⟨rest, hrest⟩ := h.exists_remaining hWx [x]
    refine h.ends_settleOperands hr hy hWx (fun c hc => hends c ?_) hrest (.inl rfl)
    rcases hc with rfl | hc
    · exact hx
    · exact .inr (h.onward hx hc)
  refine ((hop e (.inl rfl)).yields fun F => hyo F e he).bind (hro e)
    (fun start => .applyRules hro path [start] none start) fun start hstart => ?_
  obtain ⟨rest, hrest⟩ := h.exists_remaining he [start]
  exact h.ends_applyRules hro hyo hspend he (fun c hc => hop c (.inr hc)) hrest hstart none

/-- Every expression of the domain is settled. -/
theorem ends_settle (h : Confined W stage R w) (he : W e) (path : List Nat) :
    Ends (Remembers options R) (fun F => settle options stage stage.rules F path e)
      fun _ => True := by
  -- an operand of the node itself is smaller, one of what the node has come to measures less
  induction hw : w e using Nat.strong_induction_on generalizing e path with
  | _ n ih =>
    induction hs : e.size using Nat.strong_induction_on generalizing e path with
    | _ k ihs =>
      subst hw
      refine h.ends_settle_of_node he (h.ends_settleNode rising_settle
        (fun F path a ha => h.settle path ha) ends_spend_remembers he fun c hc a ha path => ?_)
      rcases hc with rfl | hc
      · have hWa := h.operand he ha
        rcases Nat.lt_or_eq_of_le (h.operand_le ha) with hlt | heq
        · exact ih _ hlt hWa path rfl
        · exact ihs _ (hs ▸ size_lt_of_mem_children ha) hWa path heq rfl
      · have hlt := (h.operand_lt hc ha).trans_le (h.measure_le hc)
        exact ih _ hlt (h.operand (h.result he hc) ha) path rfl

theorem ends_runStage (h : Confined W stage R w) (he : W e) :
    Ends (Unspent options) (fun F => runStage options F stage e) (R e) :=
  h.ends_runStage_of_settle he (h.ends_settle he [1])

/-- There are at most as many rounds as there are expressions on the list. -/
theorem ends_rounds (h : ∀ stage, Confined W stage R w) (he : W e) {seen rest : List (Expr S)}
    (hrest : Remaining R e seen rest) (hx : x = e ∨ R e x) :
    Ends (Unspent options) (fun F => rounds options F F seen x) fun _ => True := by
  induction hn : rest.length using Nat.strong_induction_on generalizing x seen rest with
  | _ n ih =>
    have hWx := (h .isolate).domain_of_onward he hx
    have htrans : ∀ {a b c}, R a b → R b c → R a c := (h .isolate).trans
    have hround : Ends (Unspent options) (fun F => runStages options F x) (R x) :=
      Ends.runStages ((h .isolate).ends_runStage hWx)
        (fun a ha => ((h .normalize).ends_runStage ((h .isolate).result hWx ha)).mono fun _ =>
          htrans ha)
        fun b hb => ((h .collect).ends_runStage ((h .isolate).result hWx hb)).mono fun _ =>
          htrans hb
    refine hround.rounds (fun _ _ _ _ _ => trivial) fun next hnext _ hs => ?_
    have hR := (h .isolate).onward hx hnext
    obtain ⟨rest', hlt, hrest'⟩ := hrest.visit hR hs
    exact ih rest'.length (hn ▸ hlt) hrest' (.inr hR) rfl

end Confined

/-! ## Whole runs -/

/-- What a stage does to an expression: it makes it neat and no more expensive. -/
def Handles (e r : Expr S) : Prop := (e.Cheaper r ∧ r.Neat) ∧ Reaches e r

theorem confined_handles (stage : Stage) :
    Confined (StaysDefinite : Expr S → Prop) stage Handles (Expr.cost .flat) where
  toRespected := (((respected_cheaper stage).and (respected_neat stage)).and
    (respected_reaches stage)).restrict (fun h hb => h.arises (.operand .start hb))
      fun h hr => h.arises (.reached .start hr.2)
  finite {a} ha := by
    refine ⟨a.candidates, fun b hb => ?_⟩
    obtain ⟨y, hy, hby⟩ := Expr.exists_mem_candidates hb.1.1 hb.1.2
    have hself := (ha.arises (.reached .start hb.2)).beq_self
    exact ⟨y, hy, by rwa [← Expr.Congruent.beq (.refl b) hby]⟩
  measure_le h := h.1.1 _
  operand_le := Expr.cost_le_of_mem_children
  operand_lt h := h.1.2.cost_lt

theorem exists_rounds_eq_ok (options : Options) (h : StaysDefinite e) :
    ∃ fuel r j, rounds options fuel fuel [e] e {} = .ok r j ∧ Unspent options j := by
  obtain ⟨rest, hrest⟩ := (confined_handles .isolate).exists_remaining h [e]
  have hends : Ends (Unspent options) (fun F => rounds options F F [e] e) fun _ => True :=
    Confined.ends_rounds confined_handles h hrest (.inl rfl)
  obtain ⟨fuel, r, j, hr, hj, -⟩ := hends {} fun _ => rfl
  exact ⟨fuel, r, j, hr, hj⟩

/-- A run without a limit converges, if no number that may appear differs from itself. -/
theorem run_converges (memoize : Bool) (h : StaysDefinite e) :
    ∃ m r steps, ∀ fuel ≥ m, run ⟨none, memoize⟩ fuel e = ⟨.converged r, steps⟩ := by
  obtain ⟨m, r, j, hr, hj⟩ := exists_rounds_eq_ok ⟨none, memoize⟩ h
  refine ⟨m, r, j.steps.toList, fun fuel hf => ?_⟩
  rw [run_of_ok (prolongs_rounds hf hf [e] e _ _ _ hr), hj rfl]
  rfl

/-- A run that may take `n` steps ends, and it takes no more than those, whatever expression it starts
with, if no number that may appear differs from itself. -/
theorem run_ends_within (n : Nat) (memoize : Bool) (h : StaysDefinite e) :
    ∃ m record, (∀ fuel ≥ m, run ⟨some n, memoize⟩ fuel e = record) ∧
      record.outcome ≠ .outOfFuel ∧ record.steps.length ≤ n := by
  obtain ⟨fuel, r, j, hr, hj⟩ := exists_rounds_eq_ok ⟨none, memoize⟩ h
  have hrounds : Limits n memoize (rounds ⟨none, memoize⟩ fuel fuel [e] e) fun F =>
      rounds ⟨some n, memoize⟩ F F [e] e := Limits.of_rounds fuel fuel [e] e
  -- the limited run ends alike, or with the first steps of the unlimited one
  obtain ⟨m, r', k, hm, hk⟩ : ∃ m r' k,
      rounds ⟨some n, memoize⟩ m m [e] e {} = .ok r' k ∧ k.steps.size ≤ n := by
    rcases Nat.lt_or_ge n j.steps.size with hlt | hge
    · obtain ⟨m, r', k, hm, -, hs⟩ :=
        hrounds.beyond (j := {}) rfl (Nat.zero_le n) (by rwa [after_of_ok hr])
      refine ⟨m, r', k, hm, ?_⟩
      rw [← Array.length_toList, hs, List.length_take]
      exact Nat.min_le_left _ _
    · obtain ⟨m, hm⟩ := hrounds.within rfl hr hge
      exact ⟨m, r, j, hm, hge⟩
  refine ⟨m, _, fun fuel' hf => run_of_ok (prolongs_rounds hf hf [e] e _ _ _ hm), ?_, by simpa⟩
  split <;> nofun

/-- Not simplified, with two differentials that a rule rotates back and forth. -/
def rawRotation : Expr Int :=
  .sub (.trace (.matMul (.differential (.var "X")) (.differential (.add .null (.var "Y")))))
    (.trace (.transpose (.scale (.literal 1) (.var "B"))))

theorem run_ends_within_rawRotation : StaysDefinite rawRotation ∧
    ∃ m record, (∀ fuel ≥ m, run ⟨some 1, true⟩ fuel rawRotation = record) ∧
      record.outcome ≠ .outOfFuel ∧ record.steps.length ≤ 1 := by
  have h : StaysDefinite rawRotation := fun x _ => beq_self_eq_true x
  exact ⟨h, run_ends_within 1 true h⟩

end TraceCalculus.Canonical
