import TraceCalculus.Canonical.Form
import TraceCalculus.Proofs.Termination

/-! # How near a differential comes to the canonical shape

Where expressions go down a weight, a loop over rules ends only when no rule matches
(`Canonical.Descending.yields_irreducible`): what has been seen before is heavier than what a rule
makes. So after the last stage no trace has a scalar in it, and no sum is one of two terms
`Tr(G*d(X))` or multiples of them (`Expr.Gathered`).

That makes the canonical form of a differential canonical in the sense of `Expr.isCanonical` where
it has no bare `Tr(d(X))`. No rule joins a bare trace with another term, and none takes a scalar
into a sum. A multiple of a sum with a bare trace in it therefore stays, and exactly these multiples
are what is not canonical (`Expr.isCanonical_of_canonicalize_differentiate`).
-/

set_option autoImplicit false

namespace TraceCalculus

namespace Expr

variable {S : Type}

/-- Whether the expression is a sum or difference. -/
def isSum : Expr S → Bool
  | .add _ _ | .sub _ _ => true
  | _ => false

/-- Whether a scalar multiple of a sum or difference is one of the terms. -/
def scalesSum : Expr S → Bool
  | .add lhs rhs | .sub lhs rhs => lhs.scalesSum || rhs.scalesSum
  | .scale _ body => body.isSum || body.scalesSum
  | _ => false

/-- Whether the trace of a differential is one of the terms. -/
def hasBareTrace : Expr S → Bool
  | .add lhs rhs | .sub lhs rhs => lhs.hasBareTrace || rhs.hasBareTrace
  | .scale _ body => body.hasBareTrace
  | .trace (.differential _) => true
  | _ => false

variable {X : String}

/-- A readable expression in which no trace has a scalar. -/
def Sharp (X : String) : Expr S → Prop
  | .add a b | .sub a b => a.Sharp X ∧ b.Sharp X
  | .scale k b => k.isScalar = true ∧ b.Sharp X
  | .trace a => a.Core X
  | _ => False

/-- The trace of a product with the differential on the right. -/
def Term (X : String) : Expr S → Prop
  | .trace a => a.Monomial X [.right] false
  | _ => False

/-- Either one term, or the trace of the differential is among the terms. -/
def Gathered [Scalar S] (X : String) (e : Expr S) : Prop :=
  e.Multiple (Term X) ∨ e.Sharp X ∧ e.hasBareTrace = true

theorem allSolid_term : AllSolid (Term X : Expr S → Prop) := by
  intro e h
  cases e <;> trivial

theorem homogeneous_sharp : Homogeneous (Sharp X : Expr S → Prop) where
  scale := Iff.rfl
  solid {e} h he := by cases e <;> trivial

theorem homogeneous_bare :
    Homogeneous fun e : Expr S => e.Sharp X ∧ e.hasBareTrace = true where
  scale := and_assoc
  solid h he := homogeneous_sharp.solid h.1 he

theorem Term.sharp {e : Expr S} (h : e.Term X) : e.Sharp X := by
  cases e <;> try cases h
  exact .inr h

theorem Gathered.sharp [Scalar S] {e : Expr S} (h : e.Gathered X) : e.Sharp X := by
  refine h.elim (fun h => ?_) And.left
  cases e with
  | scale k b => exact ⟨h.1.1, h.2.sharp⟩
  | _ => exact Term.sharp h

theorem Sharp.readable [Scalar S] {e : Expr S} (h : e.Sharp X) : e.Readable X := by
  induction e with
  | add a b iha ihb | sub a b iha ihb => exact ⟨iha h.1, ihb h.2⟩
  | scale k b _ ihb => exact ⟨h.1, ihb h.2⟩
  | trace a => exact .of_solid allSolid_core h
  | _ => cases h

theorem Core.isCanonicalTerm_trace {a : Expr S} (h : a.Core X) :
    (trace a).isCanonicalTerm = true := by
  cases a with
  | differential => rfl
  | matMul g d =>
    obtain ⟨hg, -, rfl⟩ := Core.plain_or_eq h
    simp [isCanonicalTerm, hg.hasDifferential_eq]
  | _ => rcases h with h | h <;> cases h

theorem Sharp.isCanonicalTerm_eq {e : Expr S} (h : e.Sharp X) :
    e.isCanonicalTerm = !(e.isSum || e.scalesSum) := by
  induction e with
  | scale k b _ ihb => simp [isCanonicalTerm, isSum, scalesSum, h.1, ihb h.2]
  | trace a => exact Core.isCanonicalTerm_trace h
  | add | sub => rfl
  | _ => cases h

/-- What is not canonical in a combination of traces. -/
theorem Sharp.isCanonical_eq {e : Expr S} (h : e.Sharp X) : e.isCanonical = !e.scalesSum := by
  induction e with
  | add a b iha ihb | sub a b iha ihb => simp [isCanonical, scalesSum, iha h.1, ihb h.2]
  | scale | trace => exact h.isCanonicalTerm_eq
  | _ => cases h

theorem Gathered.hasBareTrace_of_scalesSum [Scalar S] {e : Expr S} (h : e.Gathered X)
    (hs : e.scalesSum = true) : e.hasBareTrace = true := by
  refine h.elim (fun h => ?_) And.right
  cases e with
  | scale k b =>
    have hb := h.2
    cases b with
    | trace => cases hs
    | _ => cases hb
  | _ => first | cases hs | cases h

/-! ## Sums, differences and multiples -/

variable [ExactScalar S] {a b k : Expr S}

theorem gathered_scalar_times (hk : k.isScalar = true) (hb : OrNull (Gathered X) b) :
    OrNull (Gathered X) (k * b) := by
  rcases hb with rfl | hb | hb
  · exact .inl (times_null k)
  · exact (scalar_times_multiple allSolid_term hk (.inr hb)).imp .inl
  · exact .inr (.inr (homogeneous_bare.scalar_times hk hb))

/-- Two single terms, that is a sum or difference which a rule is about. -/
def Pair (X : String) : Expr S → Prop
  | .add a b | .sub a b => a.Multiple (Term X) ∧ b.Multiple (Term X)
  | _ => False

theorem gathered_or_pair {c : Expr S} (hc : c = .add a b ∨ c = .sub a b) (ha : a.Gathered X)
    (hb : b.Gathered X) : c.Gathered X ∨ c.Pair X := by
  have hs : c.Sharp X := by
    rcases hc with rfl | rfl
    · exact ⟨ha.sharp, hb.sharp⟩
    · exact ⟨ha.sharp, hb.sharp⟩
  have hbare : c.hasBareTrace = (a.hasBareTrace || b.hasBareTrace) := by
    rcases hc with rfl | rfl <;> rfl
  rcases ha with ha | ha
  · rcases hb with hb | hb
    · refine .inr ?_
      rcases hc with rfl | rfl
      · exact ⟨ha, hb⟩
      · exact ⟨ha, hb⟩
    · exact .inl (.inr ⟨hs, by simp [hbare, hb.2]⟩)
  · exact .inl (.inr ⟨hs, by simp [hbare, ha.2]⟩)

theorem gathered_plus (ha : OrNull (Gathered X) a) (hb : OrNull (Gathered X) b) :
    OrNull (Gathered X) (a + b) ∨ (a + b).Pair X := by
  rcases ha with rfl | ha
  · exact .inl hb
  rcases hb with rfl | hb
  · rw [plus_null]
    exact .inl (.inr ha)
  by_cases h : a = b
  · subst h
    rw [homogeneous_sharp.plus_self ha.sharp]
    exact .inl (gathered_scalar_times rfl (.inr ha))
  · exact (gathered_or_pair (.inl (homogeneous_sharp.plus_eq ha.sharp hb.sharp h)) ha hb).imp_left
      .inr

theorem gathered_minus (ha : OrNull (Gathered X) a) (hb : OrNull (Gathered X) b) :
    OrNull (Gathered X) (a - b) ∨ (a - b).Pair X := by
  rcases hb with rfl | hb
  · rw [minus_null]
    exact .inl ha
  rcases ha with rfl | ha
  · rw [null_minus]
    exact .inl (gathered_scalar_times rfl (.inr hb))
  rcases homogeneous_sharp.minus_eq ha.sharp hb.sharp with h | h
  · exact .inl (.inl h)
  · exact (gathered_or_pair (.inr h) ha hb).imp_left .inr

/-! ## Rules -/

omit [ExactScalar S] in
theorem Term.eq_or_scale [Scalar S] {d e : Expr S} (hd : d = differential (var X))
    (h : e.Multiple (Term X)) :
    ∃ g, e = trace (matMul g d) ∨ ∃ k, k.isScalar = true ∧ e = scale k (trace (matMul g d)) := by
  have key : ∀ {e : Expr S}, e.Term X → ∃ g, e = trace (matMul g d) := by
    intro e h
    cases e <;> try cases h
    case trace a =>
      cases a with
      | matMul g b =>
        obtain ⟨-, -, rfl⟩ := Core.plain_or_eq (.inr h)
        exact ⟨g, hd ▸ rfl⟩
      | _ => cases h
  cases e with
  | scale k b =>
    obtain ⟨g, rfl⟩ := key h.2
    exact ⟨g, .inr ⟨k, h.1.1, rfl⟩⟩
  | trace a =>
    obtain ⟨g, hg⟩ := key (e := trace a) h
    exact ⟨g, .inl hg⟩
  | _ => cases h

section Matching

open Stage (term)
open Stage.Letter

variable {σ τ : Assignment S} {name : String} {g d : Expr S}

theorem matchFrom_term (hd : d.hasDifferential = true) (hn : σ.get? name = none)
    (hne : ("C" == name) = false) (hC : σ.get? "C" = none) :
    (term (var name)).matchFrom (trace (matMul g d)) σ = .ok (("C", d) :: (name, g) :: σ) := by
  have hC' : Assignment.get? ((name, g) :: σ) "C" = none := by
    rw [← hC, Assignment.get?, List.lookup_cons, hne, Assignment.get?]
  simp [matchFrom, hd, Assignment.assign, hn, hC', bind, Except.bind]

theorem matchFrom_term_again (hd : d.hasDifferential = true) (hn : σ.get? name = none)
    (hne : ("C" == name) = false) (hC : σ.get? "C" = some d) :
    (term (var name)).matchFrom (trace (matMul g d)) σ = .ok ((name, g) :: σ) := by
  have hC' : Assignment.get? ((name, g) :: σ) "C" = some d := by
    rw [← hC, Assignment.get?, List.lookup_cons, hne, Assignment.get?]
  simp [matchFrom, hd, Assignment.assign, hn, hC', bind, Except.bind]

theorem matchFrom_scalarVar {p : Expr S} (hk : k.isScalar = true) (hn : σ.get? name = none) :
    (scale (scalarVar name) p).matchFrom (scale k b) σ = p.matchFrom b ((name, k) :: σ) := by
  simp [matchFrom, hk, Assignment.assign, hn, bind, Except.bind]

/-- The first of two terms gives the differential to match. -/
theorem matchFrom_first (hd : d = differential (var X)) (h : a.Multiple (Term X)) :
    (∃ g, (term A).matchFrom a [] = .ok [("C", d), ("A", g)]) ∨
      ∃ g k, (scale s (term A)).matchFrom a [] = .ok [("C", d), ("A", g), ("s", k)] := by
  have hdd : d.hasDifferential = true := hd ▸ rfl
  obtain ⟨g, rfl | ⟨k, hk, rfl⟩⟩ := Term.eq_or_scale hd h
  · exact .inl ⟨g, matchFrom_term hdd rfl rfl rfl⟩
  · exact .inr ⟨g, k, (matchFrom_scalarVar hk rfl).trans (matchFrom_term hdd rfl rfl rfl)⟩

/-- The second one has the same differential. -/
theorem matchFrom_second (σ : Assignment S) (name : String) (hd : d = differential (var X))
    (h : b.Multiple (Term X)) (hB : σ.get? "B" = none) (hn : σ.get? name = none)
    (hnB : ("B" == name) = false) (hnC : ("C" == name) = false) (hC : σ.get? "C" = some d) :
    (∃ g, (term B).matchFrom b σ = .ok (("B", g) :: σ)) ∨
      ∃ g k, (scale (scalarVar name) (term B)).matchFrom b σ =
        .ok (("B", g) :: (name, k) :: σ) := by
  have hdd : d.hasDifferential = true := hd ▸ rfl
  obtain ⟨g, rfl | ⟨k, hk, rfl⟩⟩ := Term.eq_or_scale hd h
  · exact .inl ⟨g, matchFrom_term_again hdd hB rfl hC⟩
  · refine .inr ⟨g, k, (matchFrom_scalarVar hk hn).trans (matchFrom_term_again hdd ?_ rfl ?_)⟩
    · rw [← hB, Assignment.get?, List.lookup_cons, hnB, Assignment.get?]
    · rw [← hC, Assignment.get?, List.lookup_cons, hnC, Assignment.get?]

theorem matchFrom_add {p q : Expr S} (hp : p.matchFrom a [] = .ok σ)
    (hq : q.matchFrom b σ = .ok τ) : (add a b).matchAgainst (add p q) = .ok τ := by
  rw [matchAgainst, matchFrom, hp]
  exact hq

theorem matchFrom_sub {p q : Expr S} (hp : p.matchFrom a [] = .ok σ)
    (hq : q.matchFrom b σ = .ok τ) : (sub a b).matchAgainst (sub p q) = .ok τ := by
  rw [matchAgainst, matchFrom, hp]
  exact hq

end Matching

/-- A pattern that matches makes a match. -/
theorem exists_mem_ruleMatches {stage : Stage} {e : Expr S} (index : Nat) {rule : Rule S}
    {σ : Assignment S} (hm : e.matchAgainst rule.pattern = .ok σ)
    (hr : stage.rules[index]? = some rule) : ∃ m, m ∈ ruleMatches e stage.rules := by
  obtain ⟨m, hm, -⟩ := exists_ruleMatch index σ hr hm rfl
  exact ⟨m, hm⟩

/-- A rule joins two terms. -/
theorem Pair.exists_mem_ruleMatches {e : Expr S} (h : e.Pair X) :
    ∃ m, m ∈ ruleMatches e Stage.collect.rules := by
  -- with a name for the differential, the patterns are matched without a look into it
  obtain ⟨d, hd⟩ : ∃ d : Expr S, d = differential (var X) := ⟨_, rfl⟩
  cases e <;> try cases h
  case add.intro a b ha hb =>
    rcases matchFrom_first hd ha with ⟨g, hg⟩ | ⟨g, k, hg⟩
    · rcases matchFrom_second [("C", d), ("A", g)] "s" hd hb rfl rfl rfl rfl rfl with
        ⟨g', hg'⟩ | ⟨g', k', hg'⟩
      · exact Expr.exists_mem_ruleMatches 20 (matchFrom_add hg hg') rfl
      · exact Expr.exists_mem_ruleMatches 23 (matchFrom_add hg hg') rfl
    · rcases matchFrom_second [("C", d), ("A", g), ("s", k)] "u" hd hb rfl rfl rfl rfl rfl with
        ⟨g', hg'⟩ | ⟨g', k', hg'⟩
      · exact Expr.exists_mem_ruleMatches 22 (matchFrom_add hg hg') rfl
      · exact Expr.exists_mem_ruleMatches 24 (matchFrom_add hg hg') rfl
  case sub.intro a b ha hb =>
    rcases matchFrom_first hd ha with ⟨g, hg⟩ | ⟨g, k, hg⟩
    · rcases matchFrom_second [("C", d), ("A", g)] "s" hd hb rfl rfl rfl rfl rfl with
        ⟨g', hg'⟩ | ⟨g', k', hg'⟩
      · exact Expr.exists_mem_ruleMatches 21 (matchFrom_sub hg hg') rfl
      · exact Expr.exists_mem_ruleMatches 26 (matchFrom_sub hg hg') rfl
    · rcases matchFrom_second [("C", d), ("A", g), ("s", k)] "u" hd hb rfl rfl rfl rfl rfl with
        ⟨g', hg'⟩ | ⟨g', k', hg'⟩
      · exact Expr.exists_mem_ruleMatches 25 (matchFrom_sub hg hg') rfl
      · exact Expr.exists_mem_ruleMatches 27 (matchFrom_sub hg hg') rfl

/-- A scalar leaves a trace. -/
theorem exists_mem_ruleMatches_trace_scale {k b : Expr S} (hk : k.isScalar = true) :
    ∃ m, m ∈ ruleMatches (trace (scale k b)) Stage.collect.rules := by
  have hm : (trace (scale k b)).matchAgainst (trace (scale (scalarVar "s") (var "A"))) =
      .ok [("A", b), ("s", k)] := matchFrom_scalarVar (p := .var "A") hk rfl
  exact exists_mem_ruleMatches 14 hm rfl

end Expr

namespace Canonical

open TraceCalculus.Expr

variable {S : Type} [ExactScalar S] {inv : Journal S → Prop} {options : Options} {stage : Stage}
  {X : String} {e r : Expr S}

/-- Where expressions go down a weight, the loop over the rules ends when no rule changes
anything. -/
theorem Descending.yields_irreducible {W Q : Expr S → Prop} {R : Expr S → Expr S → Prop}
    {w : Expr S → Nat} (h : Descending W stage R w) {operands : Expr S → Running S (Expr S)}
    {path : List Nat} {fuel : Nat} (hu : Unlimited options inv)
    (hop : ∀ {x m}, W x → Q x → m ∈ ruleMatches x stage.rules →
      Yields inv (operands m.output) fun r _ => R m.output r ∧ Q r)
    (he : W e) {start : Expr S} (hstart : R e start) (hQ : Q start) :
    Yields inv (applyRules options stage stage.rules operands path fuel [start] none start)
      fun r _ => Q r ∧ ∀ m ∈ ruleMatches r stage.rules, m.output = r := by
  -- what has been seen is no lighter than the current expression
  refine hu.applyRules (L := fun seen _ x => R e x ∧ Q x ∧ ∀ y ∈ seen, w x ≤ w y)
    (fun seen previous x hx hnone => ?_) (fun seen previous x m hx hm => ?_) fuel
    ⟨hstart, hQ, by simp⟩
  · obtain ⟨hx, hQx, hseen⟩ := hx
    refine ⟨hQx, fun m hm => ?_⟩
    refine (h.descends (h.result he hx) (h.rule he hx hm)).resolve_right fun hlt => ?_
    rcases eq_or_mem_of_choose_eq_none hnone hm with heq | hmem
    · exact absurd hlt (by simp [heq])
    · exact absurd hlt (hseen _ hmem).not_gt
  · obtain ⟨hx, hQx, hseen⟩ := hx
    obtain ⟨hm, hne, -⟩ := mem_of_choose hm
    have hW := h.result he hx
    have hout := h.rule he hx hm
    refine (hop hW hQx hm).mono fun next _ _ hnext => ?_
    have hlt := (h.le (h.result hW hout) hnext.1).trans_lt (h.lt hW hout hne)
    refine ⟨fun hmem => absurd hlt (hseen next (isSeen_iff.1 hmem)).not_gt, fun _ =>
      ⟨h.trans (h.trans hx hout) hnext.1, hnext.2, List.forall_mem_cons.2 ⟨le_rfl, fun y hy => ?_⟩⟩⟩
    exact hlt.le.trans (hseen y hy)

/-- What becomes of an expression in the last stage. -/
structure Shaping (X : String) (e r : Expr S) : Prop extends
    Settling X AtRight .collecting e r where
  gathered : e.Readable X → OrNull (Gathered X) r

/-- Readable over operands that are gathered. -/
structure Gathering (X : String) (e : Expr S) : Prop where
  readable : OrNull (Readable X) e
  gathered : OrNull (Gathered X) e ∨ e.Pair X ∨ ∃ k b, k.isScalar = true ∧ e = trace (scale k b)

theorem gathering_of_rebuilt (he : OrNull (Readable X) e) (h : Rebuilt (Shaping X) e r) :
    Gathering X r := by
  have hr : Retains X AtRight e r :=
    retains_of_rebuilt places_atRight (h.mono fun _ _ h => h.retains)
  refine ⟨hr.orNull he hr.readable, ?_⟩
  rcases he with rfl | he
  · cases h
    exact .inl (.inl rfl)
  cases h with
  | add ha hb => exact (gathered_plus (ha.gathered he.1) (hb.gathered he.2)).imp_right .inl
  | sub ha hb => exact (gathered_minus (ha.gathered he.1) (hb.gathered he.2)).imp_right .inl
  | scale ha hb =>
    exact .inl (gathered_scalar_times (ha.retains.scalar he.1) (hb.gathered he.2))
  | @trace a a' ha =>
    rcases ha.retains.core places_atRight he with rfl | ha'
    · exact .inl (.inl rfl)
    cases a' with
    | scale k b =>
      have hs : (scale k b).isScalar = false := (ha'.scaled allSolid_core).isScalar allSolid_core
      rw [traced_eq_trace rfl hs]
      exact .inr (.inr ⟨k, b, ha'.1.1, rfl⟩)
    | differential inner => exact .inl (.inr (.inr ⟨ha', rfl⟩))
    | matMul g d => exact .inl (.inr (.inl (ha'.resolve_left id)))
    | _ => rcases ha' with h | h <;> cases h
  | _ => cases he

/-- Where no rule changes anything, terms are gathered. -/
theorem Gathering.orNull (h : Gathering X e)
    (hm : ∀ m ∈ ruleMatches e Stage.collect.rules, m.output = e) : OrNull (Gathered X) e := by
  have hno : ∀ m, m ∉ ruleMatches e Stage.collect.rules := by
    intro m hmem
    have hW : Refined X e := h.readable.imp_right fun hr => .inr (.inr (.inr hr))
    have hlt := weight_refined hW hmem
    rw [hm m hmem] at hlt
    exact Nat.lt_irrefl _ hlt
  refine h.gathered.resolve_right ?_
  rintro (hp | ⟨k, b, hk, rfl⟩)
  · obtain ⟨m, hm⟩ := hp.exists_mem_ruleMatches
    exact hno m hm
  · obtain ⟨m, hm⟩ := exists_mem_ruleMatches_trace_scale hk
    exact hno m hm

theorem Shaping.self (he : Refined X e) (h : Shaping X e r) : Shaping X r r := by
  refine ⟨h.toSettling.self he.handled, fun hr => ?_⟩
  rcases he with rfl | hs | hp | hc | hr'
  · exact .inl (h.retains.fixed trivial)
  · have hs' := homogeneous_readable.isScalar_eq hr
    rw [h.retains.scalar hs] at hs'
    cases hs'
  · exact (h.retains.plain hp).imp fun hp => absurd (.inl hp) hr.traced.not_matrix
  · have hl := h.retains.linear (linear_of_multiple_core hc)
    exact hl.imp fun hl => absurd (.inr hl) hr.traced.not_matrix
  · exact h.gathered hr'

theorem yields_gathering {visit : List Nat → Expr S → Running S (Expr S)} {path : List Nat}
    {fuel : Nat}
    (hv : ∀ path e, Refined X e → Yields inv (visit path e) fun r _ => Shaping X e r)
    (he : OrNull (Readable X) e) :
    Yields inv (settleOperands visit path fuel [e] e) fun r _ =>
      Settling X AtRight .collecting e r ∧ Gathering X r := by
  have hW : ∀ {x : Expr S}, OrNull (Readable X) x → Refined X x :=
    fun hx => hx.imp_right fun hr => .inr (.inr (.inr hr))
  have hsettling : Yields inv (settleOperands visit path fuel [e] e) fun r _ =>
      Settling X AtRight .collecting e r := (respected_collecting .collect).settleOperands
    (fun path e he => (hv path e he).mono fun _ _ _ h => h.toSettling) (hW he)
  refine hsettling.and ?_
  refine Yields.settleOperands (K := fun _ x => OrNull (Readable X) x) (fun seen x hx => ?_) fuel he
  refine (Yields.rebuild hv x fun a ha => (hW hx).operand ha).mono fun next _ _ hb => ?_
  have hnext := gathering_of_rebuilt hx hb
  exact ⟨fun _ => hnext, fun _ _ => hnext.readable⟩

theorem yields_shaping_node (hu : Unlimited options inv)
    {visit : List Nat → Expr S → Running S (Expr S)} {path : List Nat} {fuel : Nat}
    (hv : ∀ path e, Refined X e → Yields inv (visit path e) fun r _ => Shaping X e r)
    (he : Refined X e) :
    Yields inv (settleNode options .collect Stage.collect.rules visit path fuel e) fun r _ =>
      Shaping X e r := by
  have hsettling : Yields inv
      (settleNode options .collect Stage.collect.rules visit path fuel e) fun r _ =>
        Settling X AtRight .collecting e r := (respected_collecting .collect).settleNode
    (fun step => (hu.allowed step).mono fun _ _ _ _ => trivial)
    (fun path e he => (hv path e he).mono fun _ _ _ h => h.toSettling) he
  by_cases hr : e.Readable X
  · have hgathered : Yields inv
        (settleNode options .collect Stage.collect.rules visit path fuel e) fun r _ =>
          OrNull (Gathered X) r := by
      refine (yields_gathering hv (.inr hr)).seq fun start hstart => ?_
      refine ((descending_collecting .collect).yields_irreducible (Q := Gathering X) hu
        (fun {x m} _ hx hm => ?_) he hstart.1 hstart.2).mono fun r _ _ h => h.1.orNull h.2
      have hret : Retains X AtRight x m.output := retains_of_rule (fun _ _ hp => .inr hp) hm
      exact yields_gathering hv (hret.orNull hx.readable hret.readable)
    exact (hsettling.and hgathered).mono fun r _ _ h => ⟨h.1, fun _ => h.2⟩
  · exact hsettling.mono fun r _ _ h => ⟨h, fun h' => absurd h' hr⟩

/-- The last stage gathers the terms of a readable differential. -/
theorem yields_collect {fuel : Nat} (hb : options.budget = none) (he : OrNull (Readable X) e) :
    Yields (Unspent options) (runStage options fuel .collect e) fun r _ =>
      OrNull (Gathered X) r := by
  have hWe : Refined X e := he.imp_right fun hr => .inr (.inr (.inr hr))
  refine Yields.runStage (R := Shaping X) (Yields.mono (Yields.settle (W := Refined X)
    (fun _ _ _ hj hr => hj.recall hr) (fun _ _ _ hj he hr => hj.remember hr (hr.self he))
    (fun visit hv path fuel x hx => ?_) fuel [1] e hWe) fun r j _ hr => hr.retains.orNull he
      hr.gathered)
  exact yields_shaping_node (unlimited_remembers hb _) hv hx

end Canonical

namespace Expr

open Canonical

variable {S : Type} [ExactScalar S] {X : String}

theorem gathered_of_canonicalize {fuel : Nat} {e c : Expr S} (he : OrNull (Traced X) e)
    (h : e.canonicalize? fuel = some c) : OrNull (Gathered X) c := by
  have hstart : Unspent {} ({} : Journal S) := fun _ => rfl
  refine of_run hstart ?_ h
  refine Yields.rounds (K := OrNull (Traced X))
    (fun x hx => hx.imp fun hg => hg.sharp.readable.traced)
    (fun x hx => Yields.runStages (yields_isolate rfl hx) (fun a ha => ?_)
      fun b hb => yields_collect rfl hb) fuel he
  have hWa : Handled X a := ha.imp_right fun ha => .inr (.inr (.inr ha.traced))
  exact ((respected_retains places_atRight fun _ _ hp => .inr hp).runStage hWa).mono
    fun r _ _ hr => hr.orNull ha hr.readable

/-- The canonical form of the differential of a trace function is the zero element or a combination
of traces `Tr(d(X))` and `Tr(G*d(X))`. It is canonical exactly where no scalar multiple of a sum is
among its terms, and where one is, so is a bare trace `Tr(d(X))`. -/
theorem isCanonical_of_canonicalize_differentiate {fuel : Nat} {f r : Expr S}
    (hf : OrNull TraceFunction f) (h : (f.differentiate X).canonicalize? fuel = some r) :
    OrNull (Sharp X) r ∧ (r.isCanonical = true ↔ r.scalesSum = false) ∧
      (r.scalesSum = true → r.hasBareTrace = true) := by
  rcases gathered_of_canonicalize (differentiate_of_orNull hf) h with rfl | hg
  · exact ⟨.inl rfl, ⟨fun _ => rfl, fun _ => rfl⟩, nofun⟩
  · refine ⟨.inr hg.sharp, ?_, hg.hasBareTrace_of_scalesSum⟩
    simp [hg.sharp.isCanonical_eq]

/-- A trace function with a scalar multiple of a sum that has a bare trace for one term. -/
def scaledSum : Expr Int :=
  .scale (.literal 2) (.add (.trace (.var "X")) (.trace (.matMul (.var "A") (.var "X"))))

theorem isCanonical_of_canonicalize_scaledSum :
    ∃ r, (scaledSum.differentiate "X").canonicalize? 12 = some r ∧
      OrNull (Sharp "X") r ∧ (r.isCanonical = true ↔ r.scalesSum = false) ∧
        (r.scalesSum = true → r.hasBareTrace = true) := by
  have hf : scaledSum.TraceFunction := ⟨rfl, trivial, trivial, trivial⟩
  have hc : ((scaledSum.differentiate "X").canonicalize? 12).isSome = true := by decide +kernel
  obtain ⟨r, hr⟩ := Option.isSome_iff_exists.1 hc
  exact ⟨r, hr, isCanonical_of_canonicalize_differentiate (.inr hf) hr⟩

/-- The scalar stays outside the sum. -/
theorem canonicalize_differentiate_scaledSum_not_canonical :
    ((scaledSum.differentiate "X").canonicalize? 12).map isCanonical = some false := by
  decide +kernel

end Expr

end TraceCalculus
