import TraceCalculus.Proofs.IsolatingSteps
import TraceCalculus.Proofs.ScalarFactors
import TraceCalculus.Proofs.SettledForms

/-! # Settled forms of multiples, sums and traces

The settled form of a multiple is the multiple of the settled form (`Canonical.unaided_times`), and
that of a sum is the sum, where no rule joins its terms (`Canonical.unaided_plus`). The settled form
of a trace is that of the trace of the settled form (`Canonical.unaided_traced`), where scalars come
out (`Canonical.unaided_traced_times`) and sums are split if the stage has a rule for it
(`Canonical.unaided_traced_plus`).

All of this rests on what the rules of a stage can make of a trace (`TraceStep`).
-/

set_option autoImplicit false

namespace TraceCalculus

variable {S : Type} [ExactScalar S]

/-- What a rule of the stage makes of the trace of an expression. About the trace of a product there
is nothing to be known but that it has a differential. -/
inductive TraceStep (stage : Stage) : Expr S → Expr S → Prop
  | scale (k a : Expr S) : TraceStep stage (.scale k a) (k * a.traced)
  | add {a b : Expr S} (h : stage = .collect ∨ (Expr.add a b).hasDifferential = true) :
      TraceStep stage (.add a b) (a.traced + b.traced)
  | sub {a b : Expr S} (h : stage = .collect ∨ (Expr.sub a b).hasDifferential = true) :
      TraceStep stage (.sub a b) (a.traced - b.traced)
  | transpose {a : Expr S} (h : stage ≠ .isolate ∨ a.hasDifferential = true) :
      TraceStep stage (.transpose a) a.traced
  | matMul {a b o : Expr S} (h : (Expr.matMul a b).hasDifferential = true) :
      TraceStep stage (.matMul a b) o

theorem TraceStep.eq_of_scale {stage : Stage} {k a o : Expr S}
    (h : TraceStep stage (.scale k a) o) : o = k * a.traced := by
  cases h
  rfl

theorem TraceStep.of_add {stage : Stage} {a b o : Expr S} (h : TraceStep stage (.add a b) o) :
    o = a.traced + b.traced ∧ (stage = .collect ∨ (Expr.add a b).hasDifferential = true) := by
  cases h with
  | add h => exact ⟨rfl, h⟩

theorem TraceStep.eq_of_transpose {stage : Stage} {a o : Expr S}
    (h : TraceStep stage (.transpose a) o) : o = a.traced := by
  cases h
  rfl

/-- Without differentials only transposes are dropped. -/
theorem TraceStep.exists_transpose {stage : Stage} {x o : Expr S} (h : TraceStep stage x o)
    (hstage : stage ≠ .collect) (ho : x.order = 0) (hu : x.scaled? = none) :
    stage ≠ .isolate ∧ ∃ a, x = .transpose a := by
  rw [Expr.order_eq_zero_iff] at ho
  cases h with
  | scale k a => cases hu
  | add h | sub h => exact h.elim (absurd · hstage) (by simp [ho])
  | matMul h => simp [ho] at h
  | @transpose a h => exact ⟨h.resolve_right (by simpa [Expr.contains] using ho), a, rfl⟩

namespace Stage

variable {stage : Stage} {a b k x o : Expr S} {m : RuleMatch S} {rule : Rule S} {σ : Assignment S}

theorem traceStep_of_isolatingStep (h : IsolatingStep (.trace x) o) : TraceStep stage x o := by
  cases h with
  | rotate h => exact .matMul (by simp [Expr.contains, h])
  | traceAdd h => exact .add (.inr h)
  | traceSub h => exact .sub (.inr h)
  | turn h => exact .matMul (by simp [Expr.contains, h])
  | traceTranspose h => exact .transpose (.inr h)
  | associate h => exact .matMul (by simp [Expr.contains] at h ⊢; simp [h])
  | traceScale h => exact .scale _ _

omit [ExactScalar S] in
theorem subst_of_normalizing [Scalar S] (hr : rule ∈ normalizing)
    (h : rule.pattern.instantiate σ = .trace x) :
    ∃ a, x = .transpose a ∧ rule.replacement.subst σ = a.traced := by
  revert h
  revert rule
  simp only [normalizing, Expr.instantiate, List.forall_mem_cons, List.not_mem_nil, false_imp_iff,
    implies_true, and_true, true_and, reduceCtorEq, Expr.trace.injEq]
  rintro rfl
  exact ⟨_, rfl, rfl⟩

theorem traceStep_of_collecting (hr : rule ∈ collecting)
    (h : rule.pattern.instantiate σ = .trace x) :
    TraceStep .collect x (rule.replacement.subst σ) := by
  revert h
  revert rule
  simp only [collecting, Expr.instantiate, List.forall_mem_cons, List.not_mem_nil, false_imp_iff,
    implies_true, and_true, true_and, reduceCtorEq, Expr.trace.injEq]
  constructor
  · rintro rfl
    exact .add (.inl rfl)
  · rintro rfl
    exact .sub (.inl rfl)

theorem traceStep_of_mem (hm : m ∈ ruleMatches (.trace x) stage.rules) :
    TraceStep stage x m.output := by
  obtain ⟨hr, hmatch⟩ := mem_ruleMatches hm
  have hinst := Expr.instantiate_of_matchAgainst hmatch
  rw [m.output_eq]
  have hisolating : m.rule ∈ isolating →
      TraceStep stage x (m.rule.replacement.subst m.assignment) := fun hr =>
    traceStep_of_isolatingStep (isolatingStep_of_match hr hmatch)
  have hnormalizing : stage ≠ .isolate → m.rule ∈ normalizing →
      TraceStep stage x (m.rule.replacement.subst m.assignment) := by
    intro hstage hr
    obtain ⟨a, rfl, ho⟩ := subst_of_normalizing hr hinst
    rw [ho]
    exact .transpose (.inl hstage)
  cases stage with
  | isolate => exact hisolating hr
  | normalize => exact (List.mem_append.1 hr).elim hisolating (hnormalizing nofun)
  | collect =>
    rcases List.mem_append.1 hr with hr | hr
    · exact (List.mem_append.1 hr).elim hisolating (hnormalizing nofun)
    · exact traceStep_of_collecting hr hinst

omit [ExactScalar S] in
theorem getElem?_of_start {l l' : List (Rule S)} (h : l <+: l') {i : Nat} (hi : l[i]? = some rule) :
    l'[i]? = some rule := by
  obtain ⟨later, rfl⟩ := h
  rw [List.getElem?_append_left (List.getElem?_eq_some_iff.1 hi).1, hi]

omit [ExactScalar S] in
/-- The rules of the first stage come first in every stage. -/
theorem isolating_start : isolating <+: (stage.rules : List (Rule S)) := by
  cases stage with
  | isolate => exact List.prefix_refl _
  | normalize => exact List.prefix_append _ _
  | collect => exact (List.prefix_append _ _).trans (List.prefix_append _ _)

omit [ExactScalar S] in
/-- Those of the second stage follow. -/
theorem normalize_start (h : stage ≠ .isolate) :
    normalize.rules <+: (stage.rules : List (Rule S)) := by
  cases stage with
  | isolate => exact absurd rfl h
  | normalize => exact List.prefix_refl _
  | collect => exact List.prefix_append _ _

/-- A scalar leaves a trace. -/
theorem ruleMatches_trace_scale_ne_nil (hk : k.isScalar = true) :
    ruleMatches (.trace (.scale k a)) stage.rules ≠ [] := by
  obtain ⟨m, hm, -⟩ : ∃ m ∈ ruleMatches (.trace (.scale k a)) stage.rules,
      m.output = k * a.traced := by
    refine exists_ruleMatch 14 [("A", a), ("s", k)] (getElem?_of_start isolating_start rfl) ?_ rfl
    simp only [Expr.matchAgainst, Expr.matchFrom, hk]
    rfl
  exact List.ne_nil_of_mem hm

/-- The trace of a sum is split in the last stage, and where there is a differential. -/
theorem ruleMatches_trace_add_ne_nil
    (h : stage = .collect ∨ (Expr.add a b).hasDifferential = true) :
    ruleMatches (.trace (.add a b)) stage.rules ≠ [] := by
  obtain ⟨m, hm, -⟩ : ∃ m ∈ ruleMatches (.trace (.add a b)) stage.rules,
      m.output = a.traced + b.traced := by
    rcases h with rfl | h
    · exact exists_ruleMatch 28 [("B", b), ("A", a)] rfl rfl rfl
    · refine exists_ruleMatch 1 [("B", b), ("A", a)] (getElem?_of_start isolating_start rfl) ?_ rfl
      simp only [Expr.matchAgainst, Expr.matchFrom, h]
      rfl
  exact List.ne_nil_of_mem hm

/-- From the second stage on a transpose in a trace is dropped. -/
theorem ruleMatches_trace_transpose_ne_nil (h : stage ≠ .isolate) :
    ruleMatches (.trace (.transpose a)) stage.rules ≠ [] := by
  obtain ⟨m, hm, -⟩ := exists_ruleMatch (e := .trace (.transpose a)) 19 [("A", a)]
    (getElem?_of_start (normalize_start h) rfl) rfl rfl
  exact List.ne_nil_of_mem hm

/-- From the second stage on transposes move down to the leaves. -/
theorem exists_var_of_ruleMatches_transpose (h : stage ≠ .isolate)
    (hm : ruleMatches (.transpose x) stage.rules = []) (hn : (Expr.transpose x).Neat)
    (ho : x.order = 0) : ∃ name, x = .var name := by
  have hno : ∀ {o : Expr S}, ¬ ∃ m ∈ ruleMatches (.transpose x) stage.rules, m.output = o := by
    simp [hm]
  have hp := normalize_start (S := S) h
  cases x with
  | var name => exact ⟨name, rfl⟩
  | differential => simp at ho
  | scale k a =>
    refine absurd (exists_ruleMatch 13 [("A", a), ("s", k)]
      (getElem?_of_start isolating_start rfl) ?_ rfl) hno
    simp only [Expr.matchAgainst, Expr.matchFrom, hn.1.2.2.scalar]
    rfl
  | matMul a b =>
    exact absurd (exists_ruleMatch 16 [("B", b), ("A", a)] (getElem?_of_start hp rfl) rfl rfl) hno
  | add a b =>
    exact absurd (exists_ruleMatch 17 [("B", b), ("A", a)] (getElem?_of_start hp rfl) rfl rfl) hno
  | sub a b =>
    exact absurd (exists_ruleMatch 18 [("B", b), ("A", a)] (getElem?_of_start hp rfl) rfl rfl) hno
  | scalarVar | literal | null | trace | transpose => cases hn.2

/-- No rule is about a scaled expression. -/
theorem ruleMatches_scale : ruleMatches (.scale a b) stage.rules = [] := by
  refine List.eq_nil_iff_forall_not_mem.2 fun m hm => ?_
  simpa [Expr.kind] using kind_of_mem_ruleMatches hm

omit [ExactScalar S] in
/-- Only rules of the last stage are about sums, and those have a differential. -/
theorem collect_of_instantiate_add (hr : rule ∈ stage.rules) (hf : rule.pattern.Faces σ)
    (h : rule.pattern.instantiate σ = .add a b) :
    stage = .collect ∧ (Expr.add a b).hasDifferential = true := by
  have hbefore : ∀ rule ∈ (isolating ++ normalizing : List (Rule S)),
      (rule.pattern.instantiate σ).kind ≠ .add := by
    simp [isolating, normalizing, Expr.instantiate, Expr.kind]
  have hcollecting : ∀ rule ∈ (collecting : List (Rule S)), rule.pattern.Faces σ →
      (rule.pattern.instantiate σ).kind = .add →
        (rule.pattern.instantiate σ).hasDifferential = true := by
    simp +contextual [collecting, Expr.instantiate, Expr.Faces, Expr.kind, Expr.contains]
  have hkind : (rule.pattern.instantiate σ).kind = .add := by rw [h]; rfl
  cases stage with
  | isolate => exact absurd hkind (hbefore rule (List.mem_append_left _ hr))
  | normalize => exact absurd hkind (hbefore rule hr)
  | collect =>
    rcases List.mem_append.1 hr with hr | hr
    · exact absurd hkind (hbefore rule hr)
    · exact ⟨rfl, h ▸ hcollecting rule hr hf hkind⟩

/-- Terms are joined in the last stage only, and only if there is a differential. -/
theorem ruleMatches_add (h : stage ≠ .collect ∨ (Expr.add a b).order = 0) :
    ruleMatches (.add a b) stage.rules = [] := by
  refine List.eq_nil_iff_forall_not_mem.2 fun m hm => ?_
  obtain ⟨hr, hmatch⟩ := mem_ruleMatches hm
  obtain ⟨hstage, hd⟩ := collect_of_instantiate_add hr (Expr.faces_of_matchAgainst hmatch)
    (Expr.instantiate_of_matchAgainst hmatch)
  rcases h with h | h
  · exact h hstage
  · exact (Expr.order_pos hd).ne' h

end Stage

open TraceCalculus.Expr (Neat Settled OperandsSettled Unscaled)

namespace Canonical

variable {stage : Stage} {a b e k p p' q q' r t u v v' x y : Expr S}

/-! ## Scalars -/

/-- No rule is about a scalar, or anything in it. -/
theorem settled_of_isScalar (hk : k.isScalar = true) : k.Settled stage := by
  have hscalars : ∀ s ∈ k.postOrder, s.isScalar = true := by
    refine Expr.forall_postOrder_of_inherited (P := fun s => s.isScalar = true) ?_ hk
    intro a e he ha
    cases e with
    | literal | scalarVar => cases ha
    | scale k b =>
      simp only [Expr.isScalar, Bool.and_eq_true] at he
      simp only [Expr.children, List.mem_cons, List.not_mem_nil, or_false] at ha
      rcases ha with rfl | rfl
      · exact he.1
      · exact he.2
    | _ => cases he
  refine fun s hs => List.eq_nil_iff_forall_not_mem.2 fun m hm => ?_
  have := Stage.isScalar_of_mem_ruleMatches hm
  rw [hscalars s hs] at this
  cases this

theorem unaided_of_settled (hs : e.Settled stage) (hn : e.Neat) : Unaided stage e e :=
  unaided_self hs hn e.definite_exact

theorem unaided_scalar (hk : k.isScalar = true) (hn : k.Neat) : Unaided stage k k :=
  unaided_of_settled (settled_of_isScalar hk) hn

/-- No rule is about a leaf. -/
theorem settled_leaf (h : e.children = []) : e.Settled stage := by
  refine Expr.settled_iff.2 ⟨List.eq_nil_iff_forall_not_mem.2 fun m hm => ?_, fun a ha => ?_⟩
  · have hkind := Stage.kind_of_mem_ruleMatches hm
    cases e with
    | var | scalarVar | literal | null => simp [Expr.kind] at hkind
    | _ => cases h
  · rw [h] at ha
    cases ha

theorem Unaided.eq_null (h : Unaided stage .null r) : r = .null :=
  h.unique (unaided_of_settled (settled_leaf rfl) trivial)

/-! ## Multiples -/

theorem times_unscaled (hv : Unscaled v) (hk : k.isScalar = true) (hone : k ≠ .literal 1) :
    k * v = .scale k v := by
  rw [Expr.times_of_scaling (hv.scaling hk hone), Expr.asOperand_exact]

theorem settled_scale (hk : k.isScalar = true) (hv : v.Settled stage) :
    (Expr.scale k v).Settled stage := by
  refine Expr.settled_iff.2 ⟨Stage.ruleMatches_scale, fun a ha => ?_⟩
  simp only [Expr.children, List.mem_cons, List.not_mem_nil, or_false] at ha
  rcases ha with rfl | rfl
  · exact settled_of_isScalar hk
  · exact hv

theorem settled_times_unscaled (hv : Unscaled v) (hs : v.Settled stage) (hk : k.isScalar = true) :
    (k * v).Settled stage := by
  by_cases hone : k = .literal 1
  · rwa [hone, Expr.one_times]
  · rw [times_unscaled hv hk hone]
    exact settled_scale hk hs

/-- A multiple of what is settled is settled. -/
theorem settled_times (hk : k.isScalar = true) (hn : x.Neat) (hs : x.Settled stage) :
    (k * x).Settled stage := by
  induction x, hn using Expr.neat_induction with
  | null => rwa [Expr.times_null]
  | literal y => exact settled_of_isScalar (Expr.isScalar_times hk rfl)
  | unscaled v hv => exact settled_times_unscaled hv hs hk
  | scale u v h hv _ =>
    rw [Expr.times_scale hk h]
    exact settled_times_unscaled hv ((Expr.settled_iff.1 hs).2 v (.tail _ (.head _)))
      (Expr.isScalar_times hk h.2.2.scalar)

theorem unaided_times_unscaled (hv : Unscaled v) (hk : k.isScalar = true) (hn : k.Neat)
    (ho : v.order ≤ 1) (h : Unaided stage v v') : Unaided stage (k * v) (k * v') := by
  have hv' := h.settles ho
  by_cases hone : k = .literal 1
  · rwa [hone, Expr.one_times, Expr.one_times]
  · rw [times_unscaled hv hk hone]
    have hs := Expr.settled_iff.1 (settled_times hk hv'.neat hv'.settled)
    exact unaided_of_operated
      (operated_of_rebuilt (.scale (unaided_scalar hk hn) h) (hn.times hv'.neat) hs.2) hs.1

/-- What respects the multiples of unscaled expressions respects all multiples. -/
theorem times_of_unscaled {R : Expr S → Expr S → Prop}
    (hunique : ∀ {e r r'}, R e r → R e r' → r = r')
    (hnull : R .null .null) (hscalar : ∀ s, s.isScalar = true → s.Neat → R s s)
    (hk : k.isScalar = true) (hn : k.Neat) (hx : x.Neat)
    (hunscaled : ∀ v, v = x ∨ v ∈ x.children → Unscaled v → v.isScalar = false →
      ∃ w : Expr S, w.Neat ∧ ∀ u, u.isScalar = true → u.Neat → R (u * v) (u * w))
    (h : R x t) : R (k * x) (k * t) := by
  cases hm : x.isScalar with
  | true =>
    rw [hunique h (hscalar x hm hx)]
    exact hscalar _ (Expr.isScalar_times hk hm) (hn.times hx)
  | false =>
    induction x, hx using Expr.neat_induction with
    | null => rwa [hunique h hnull, Expr.times_null]
    | literal y => cases hm
    | unscaled v hv =>
      obtain ⟨w, -, hw⟩ := hunscaled v (.inl rfl) hv hm
      have hone := hw (.literal 1) rfl trivial
      rw [Expr.one_times, Expr.one_times] at hone
      rw [hunique h hone]
      exact hw k hk hn
    | scale u v hx hv _ =>
      have hu := hx.2.2.scalar
      have hmv : v.isScalar = false := by simpa [Expr.isScalar, hu] using hm
      obtain ⟨w, hwn, hw⟩ := hunscaled v (.inr (.tail _ (.head _))) hv hmv
      have ht : t = u * w := hunique h (hx.tidied ▸ hw u hu hx.1)
      rw [ht, Expr.times_scale hk hx, ← Expr.times_times_of_isScalar hk hn hu hx.1 hwn]
      exact hw _ (Expr.isScalar_times hk hu) (hn.times hx.1)

theorem Regular.of_eq_or_mem_children (h : Regular e) (ha : a = e ∨ a ∈ e.children) :
    Regular a := by
  rcases ha with rfl | ha
  · exact h
  · exact h.of_mem_children ha

/-- The settled form of a multiple is the multiple of the settled form. -/
theorem unaided_times (hk : k.isScalar = true) (hn : k.Neat) (hp : Regular p)
    (h : Unaided stage p p') : Unaided stage (k * p) (k * p') := by
  refine times_of_unscaled Unaided.unique (unaided_of_settled (settled_leaf rfl) trivial)
    (fun s => unaided_scalar) hk hn hp.neat (fun v hvp hv _ => ?_) h
  obtain ⟨-, ho⟩ := hp.of_eq_or_mem_children hvp
  obtain ⟨w, hw⟩ := exists_unaided stage ⟨hv.neat, ho⟩
  exact ⟨w, (hw.settles ho).neat, fun u hu hn => unaided_times_unscaled hv hu hn ho hw⟩

/-! ## Sums -/

theorem settled_add (hp : p.Settled stage) (hq : q.Settled stage)
    (h : ruleMatches (.add p q) stage.rules = []) : (Expr.add p q).Settled stage := by
  refine Expr.settled_iff.2 ⟨h, fun a ha => ?_⟩
  simp only [Expr.children, List.mem_cons, List.not_mem_nil, or_false] at ha
  rcases ha with rfl | rfl
  · exact hp
  · exact hq

/-- What becomes of the sum of two expressions that no rule joins is settled. -/
theorem settled_plus (hp : p.Neat) (hsp : p.Settled stage) (hsq : q.Settled stage)
    (h : ruleMatches (.add p q) stage.rules = []) : (p + q).Settled stage := by
  have hplus := Expr.plus_add p q
  generalize p + q = c at hplus
  cases hplus with
  | nullLeft => exact hsq
  | nullRight => exact hsp
  | fold => exact settled_of_isScalar rfl
  | double _ _ hc =>
    rw [← hc.eq]
    exact settled_times rfl hp hsp
  | add _ =>
    rw [Expr.asOperand_exact, Expr.asOperand_exact]
    exact settled_add hsp hsq h

/-- The settled form of a sum is the sum of the settled forms, if no rule joins them. -/
theorem unaided_plus (hp : Regular p) (hq : Regular q) (h : Unaided stage p p')
    (h' : Unaided stage q q') (hr : ruleMatches (.add p' q') stage.rules = []) :
    Unaided stage (p + q) (p' + q') := by
  have hplus := Expr.plus_add p q
  generalize p + q = c at hplus
  cases hplus with
  | nullLeft =>
    rw [h.eq_null]
    exact h'
  | nullRight => rwa [h'.eq_null, Expr.plus_null]
  | fold x y =>
    rw [h.unique (unaided_scalar rfl trivial), h'.unique (unaided_scalar rfl trivial)]
    exact unaided_scalar rfl trivial
  | double _ heq hc =>
    obtain rfl := (Expr.beq_iff _ _).1 heq
    rw [h'.unique h, Expr.plus_self, ← hc.eq]
    exact unaided_times rfl trivial hp h
  | add _ =>
    have hsp := h.settles hp.order_le
    have hsq := h'.settles hq.order_le
    have hs := Expr.settled_iff.1 (settled_plus hsp.neat hsp.settled hsq.settled hr)
    rw [Expr.asOperand_exact, Expr.asOperand_exact]
    exact unaided_of_operated
      (operated_of_rebuilt (.add h h') (hsp.neat.plus hsq.neat) hs.2) hs.1

/-! ## Traces -/

omit [ExactScalar S] in
theorem traced_of_isScalar (hk : k.isScalar = true) : k.traced = k := by
  unfold Expr.traced
  split
  · rfl
  · exact if_pos hk

theorem Regular.traced (h : Regular e) : Regular e.traced :=
  ⟨h.neat.traced, (Expr.tracing_traced e).falls.order_le.trans h.order_le⟩

theorem operandsSettled_traced (h : a.Settled stage) : a.traced.OperandsSettled stage := by
  have ht := Expr.tracing_traced a
  generalize a.traced = c at ht
  cases ht with
  | null => nofun
  | scalar _ => exact (Expr.settled_iff.1 h).2
  | trace _ =>
    intro b hb
    rwa [List.mem_singleton.1 hb]

/-- The settled form of a trace is that of the trace of the settled form. -/
theorem unaided_traced (he : Regular e) (h : Unaided stage e a)
    (ht : Unaided stage a.traced t) : Unaided stage e.traced t := by
  have hs := h.settles he.order_le
  cases hnull : e.isNull with
  | true =>
    obtain rfl := Expr.isNull_iff.1 hnull
    rwa [h.eq_null] at ht
  | false =>
    cases hk : e.isScalar with
    | true => rwa [h.unique (unaided_scalar hk he.neat)] at ht
    | false =>
      rw [Expr.traced_eq_trace hnull hk]
      have hops := operandsSettled_traced hs.settled
      have hreg : Regular a.traced := (hs.toLowering.regular he).traced
      exact ht.of_operated (operated_of_rebuilt (.trace h) hreg.neat hops)
        (operated_self hreg.neat hops) hreg

theorem unaided_traced_times_unscaled (hv : Unscaled v) (hm : v.isScalar = false)
    (hs : v.Settled stage) (ho : v.order ≤ 1) (hk : k.isScalar = true) (hn : k.Neat)
    (h : Unaided stage v.traced t) : Unaided stage (k * v).traced (k * t) := by
  by_cases hone : k = .literal 1
  · rwa [hone, Expr.one_times, Expr.one_times]
  have hreg : Regular v.traced := Regular.traced ⟨hv.neat, ho⟩
  have ht := h.settles hreg.order_le
  have htrace := Expr.traced_eq_trace hv.present hm
  have hscale : k * v.traced = .scale k v.traced := by
    rw [htrace]
    exact times_unscaled ⟨htrace ▸ hreg.neat, rfl, rfl, rfl⟩ hk hone
  have hkv : (Expr.scale k v).isScalar = false := by simp [Expr.isScalar, hm]
  have hneat : (Expr.scale k v).Neat := times_unscaled hv hk hone ▸ hn.times hv.neat
  have hkt := Expr.settled_iff.1 (settled_times hk ht.neat ht.settled)
  rw [times_unscaled hv hk hone, Expr.traced_eq_trace rfl hkv]
  refine unaided_of_rule (o := k * v.traced) (Expr.traced_eq_trace rfl hkv ▸ hneat.traced) ?_
    (Stage.ruleMatches_trace_scale_ne_nil hk) (fun m hm => ?_) ?_ ?_ hkt.1
  · intro b hb
    rw [List.mem_singleton.1 hb]
    exact settled_scale hk hs
  · exact (Stage.traceStep_of_mem hm).eq_of_scale
  · rw [hscale]
    intro h
    cases h
  · rw [hscale]
    exact operated_of_rebuilt (.scale (unaided_scalar hk hn) h) (hn.times ht.neat) hkt.2

/-- A scalar factor comes out of the settled form of a trace. -/
theorem unaided_traced_times (hk : k.isScalar = true) (hn : k.Neat) (hx : Regular x)
    (hs : x.Settled stage) (h : Unaided stage x.traced t) :
    Unaided stage (k * x).traced (k * t) := by
  refine times_of_unscaled (R := fun x t => Unaided stage x.traced t) Unaided.unique
    (unaided_of_settled (settled_leaf rfl) trivial) (fun s hs hn => ?_) hk hn hx.neat
    (fun v hvx hv hm => ?_) h
  · rw [traced_of_isScalar hs]
    exact unaided_scalar hs hn
  · have hreg := hx.of_eq_or_mem_children hvx
    have hsv : v.Settled stage := by
      rcases hvx with rfl | hvx
      · exact hs
      · exact (Expr.settled_iff.1 hs).2 v hvx
    obtain ⟨w, hw⟩ := exists_unaided stage hreg.traced
    exact ⟨w, (hw.settles hreg.traced.order_le).neat, fun u hu hn =>
      unaided_traced_times_unscaled hv hm hsv hreg.order_le hu hn hw⟩

/-- The traces of distinct expressions are distinct. -/
theorem distinct_traced (h : x.Distinct y) : x.traced.Distinct y.traced := by
  have hx := Expr.tracing_traced x
  have hy := Expr.tracing_traced y
  generalize x.traced = c at hx
  generalize y.traced = d at hy
  cases hx with
  | null => cases h.left
  | scalar hsx =>
    cases hy with
    | null => cases h.right
    | scalar _ => exact h
    | trace _ =>
      refine ⟨h.left, rfl, .inr rfl, beq_eq_false_iff_ne.2 ?_⟩
      rintro rfl
      cases hsx
  | trace _ =>
    cases hy with
    | null => cases h.right
    | scalar hsy =>
      refine ⟨rfl, h.right, .inl rfl, beq_eq_false_iff_ne.2 ?_⟩
      rintro rfl
      cases hsy
    | trace _ =>
      refine ⟨rfl, rfl, .inl rfl, beq_eq_false_iff_ne.2 fun heq => ?_⟩
      cases heq
      exact ne_of_beq_false h.ne rfl

theorem plus_of_distinct (h : x.Distinct y) : x + y = .add x y := by
  rw [Expr.plus_of_distinct h, Expr.asOperand_exact, Expr.asOperand_exact]

/-- The trace of a sum is split by the stage, and the terms are not joined again. -/
theorem unaided_trace_add (h : x.Distinct y) (hx : Regular x) (hy : Regular y)
    (hsx : x.Settled stage) (hsy : y.Settled stage) (ht : Unaided stage x.traced t)
    (hu : Unaided stage y.traced u) (hstage : stage = .collect ↔ (Expr.add x y).order = 0) :
    Unaided stage (.trace (.add x y)) (t + u) := by
  have hneat : (Expr.add x y).Neat := plus_of_distinct h ▸ hx.neat.plus hy.neat
  have hst := ht.settles hx.traced.order_le
  have hsu := hu.settles hy.traced.order_le
  have hquiet : ruleMatches (.add x y) stage.rules = [] :=
    Stage.ruleMatches_add (or_iff_not_imp_left.2 fun hc => hstage.1 (not_not.1 hc))
  have hquiet' : ruleMatches (.add t u) stage.rules = [] := by
    refine Stage.ruleMatches_add (or_iff_not_imp_left.2 fun hc => ?_)
    have hle := hst.order_le.trans (Expr.tracing_traced x).falls.order_le
    have hle' := hsu.order_le.trans (Expr.tracing_traced y).falls.order_le
    have := hstage.1 (not_not.1 hc)
    simp only [Expr.order] at hle hle' this ⊢
    omega
  have hsplit : stage = .collect ∨ (Expr.add x y).hasDifferential = true := by
    refine or_iff_not_imp_left.2 fun hc => ?_
    rw [← Bool.not_eq_false, ← Expr.order_eq_zero_iff]
    exact fun ho => hc (hstage.2 ho)
  have hsum := Expr.settled_iff.1 (settled_plus hst.neat hst.settled hsu.settled hquiet')
  refine unaided_of_rule (o := x.traced + y.traced) ⟨hneat, rfl⟩ ?_
    (Stage.ruleMatches_trace_add_ne_nil hsplit)
    (fun m hm => (Stage.traceStep_of_mem hm).of_add.1) ?_ ?_ hsum.1
  · intro b hb
    rw [List.mem_singleton.1 hb, ← plus_of_distinct h]
    exact settled_plus hx.neat hsx hsy hquiet
  · rw [plus_of_distinct (distinct_traced h)]
    intro heq
    cases heq
  · rw [plus_of_distinct (distinct_traced h)]
    exact operated_of_rebuilt (.add ht hu) (hst.neat.plus hsu.neat) hsum.2

/-- In the first two stages a trace of a sum without differentials stays. -/
theorem settled_trace_add (h : stage ≠ .collect) (ho : (Expr.add x y).order = 0)
    (hsx : x.Settled stage) (hsy : y.Settled stage) : (Expr.trace (.add x y)).Settled stage := by
  refine Expr.settled_iff.2 ⟨List.eq_nil_iff_forall_not_mem.2 fun m hm => ?_, ?_⟩
  · rw [Expr.order_eq_zero_iff] at ho
    exact (Stage.traceStep_of_mem hm).of_add.2.elim h (by simp [ho])
  · intro b hb
    rw [List.mem_singleton.1 hb]
    exact settled_add hsx hsy (Stage.ruleMatches_add (.inl h))

/-- The trace of a sum is settled to the sum of the settled forms of the traces. A sum without
differentials may stay in the trace until the last stage. -/
theorem unaided_traced_plus (hx : Regular x) (hy : Regular y) (hsx : x.Settled stage)
    (hsy : y.Settled stage) (ht : Unaided stage x.traced t) (hu : Unaided stage y.traced u)
    (hstage : stage = .collect → x.order = 0 ∧ y.order = 0) :
    Unaided stage (x + y).traced (t + u) ∨
      stage ≠ .collect ∧ (x.order = 0 ∧ y.order = 0) ∧
        Unaided stage (x + y).traced (x + y).traced := by
  have hplus := Expr.plus_add x y
  generalize x + y = c at hplus
  cases hplus with
  | nullLeft =>
    rw [ht.eq_null]
    exact .inl hu
  | nullRight =>
    rw [hu.eq_null, Expr.plus_null]
    exact .inl ht
  | fold a b =>
    rw [ht.unique (unaided_scalar rfl trivial), hu.unique (unaided_scalar rfl trivial)]
    exact .inl (unaided_scalar rfl trivial)
  | double _ heq hc =>
    obtain rfl := (Expr.beq_iff _ _).1 heq
    rw [hu.unique ht, Expr.plus_self, ← hc.eq]
    exact .inl (unaided_traced_times rfl trivial hx hsx ht)
  | add h =>
    rw [Expr.asOperand_exact, Expr.asOperand_exact, Expr.traced_eq_trace rfl rfl]
    by_cases hc : stage = .collect ↔ (Expr.add x y).order = 0
    · exact .inl (unaided_trace_add h hx hy hsx hsy ht hu hc)
    · have horder : (Expr.add x y).order = 0 ↔ x.order = 0 ∧ y.order = 0 := by
        simp only [Expr.order]
        omega
      have hstage' : stage ≠ .collect := fun h => hc (iff_of_true h (horder.2 (hstage h)))
      have ho : (Expr.add x y).order = 0 := by
        by_contra ho
        exact hc (iff_of_false hstage' ho)
      exact .inr ⟨hstage', horder.1 ho, unaided_of_settled (settled_trace_add hstage' ho hsx hsy)
        ⟨plus_of_distinct h ▸ hx.neat.plus hy.neat, rfl⟩⟩

/-! ## From one stage to the next -/

theorem ruleMatches_transpose_var (name : String) :
    ruleMatches (.transpose (.var name) : Expr S) stage.rules = [] := by
  refine List.eq_nil_iff_forall_not_mem.2 fun m hm => ?_
  obtain ⟨hr, hmatch⟩ := mem_ruleMatches hm
  have hinst := Expr.instantiate_of_matchAgainst hmatch
  revert hinst
  generalize m.rule = rule at hr
  refine Stage.forall_rules (P := fun rule =>
    rule.pattern.instantiate m.assignment ≠ .transpose (.var name)) ?_ ?_ ?_ hr <;>
    simp [Stage.isolating, Stage.normalizing, Stage.collecting, Expr.instantiate]

theorem settled_trace_var (name : String) : (Expr.trace (.var name) : Expr S).Settled stage := by
  refine Expr.settled_iff.2 ⟨List.eq_nil_iff_forall_not_mem.2 fun m hm => ?_, fun a ha => ?_⟩
  · exact nomatch Stage.traceStep_of_mem hm
  · rw [List.mem_singleton.1 ha]
    exact settled_leaf rfl

theorem settled_transpose_var (name : String) :
    (Expr.transpose (.var name) : Expr S).Settled stage := by
  refine Expr.settled_iff.2 ⟨ruleMatches_transpose_var name, fun a ha => ?_⟩
  rw [List.mem_singleton.1 ha]
  exact settled_leaf rfl

theorem unaided_trace_transpose_var (h : stage ≠ .isolate) (name : String) :
    Unaided stage (.trace (.transpose (.var name)) : Expr S) (.trace (.var name)) := by
  have hs : (Expr.trace (.var name) : Expr S).Settled stage := settled_trace_var name
  refine unaided_of_rule (o := .trace (.var name)) ⟨⟨trivial, rfl⟩, rfl⟩ (fun a ha => ?_)
    (Stage.ruleMatches_trace_transpose_ne_nil h)
    (fun m hm => (Stage.traceStep_of_mem hm).eq_of_transpose) nofun
    (operated_self ⟨trivial, rfl⟩ (Expr.settled_iff.1 hs).2)
    (Expr.settled_iff.1 hs).1
  rw [List.mem_singleton.1 ha]
  exact settled_transpose_var name

variable {next : Stage}

theorem unaided_next_of_unscaled (hstage : stage ≠ .collect) (hnext : next ≠ .isolate)
    (hv : Unscaled v) (hm : v.isScalar = false) (ho : v.order = 0) (hs : v.Settled stage)
    (ht : Unaided stage v.traced t) (ha : Unaided next v a) (hb : Unaided next a.traced b) :
    Unaided next t b := by
  have hreg : Regular v := ⟨hv.neat, by omega⟩
  have htrace := Expr.traced_eq_trace hv.present hm
  cases hrules : ruleMatches v.traced stage.rules with
  | nil =>
    -- the trace stays, and its operand is settled in the next stage
    have hsettled : v.traced.Settled stage :=
      Expr.settled_iff.2 ⟨hrules, operandsSettled_traced hs⟩
    rw [ht.unique (unaided_of_settled hsettled hreg.traced.neat)]
    exact unaided_traced hreg ha hb
  | cons m rest =>
    -- only the transpose of a variable is dropped
    have hmem : m ∈ ruleMatches (.trace v) stage.rules := by
      rw [← htrace, hrules]
      exact .head _
    obtain ⟨hisolate, w, rfl⟩ :=
      (Stage.traceStep_of_mem hmem).exists_transpose hstage ho hv.unscaled
    obtain ⟨name, rfl⟩ := Stage.exists_var_of_ruleMatches_transpose hisolate
      (Expr.settled_iff.1 hs).1 hv.neat ho
    obtain rfl := ht.unique (unaided_trace_transpose_var hisolate name)
    obtain rfl := ha.unique (unaided_of_settled (settled_transpose_var name) hv.neat)
    rw [hb.unique (unaided_trace_transpose_var hnext name)]
    exact unaided_of_settled (settled_trace_var name) ⟨trivial, rfl⟩

/-- Without differentials the next stage makes the same of a trace, whether or not the stage before
has been there. -/
theorem unaided_next (hstage : stage ≠ .collect) (hnext : next ≠ .isolate) (hx : Regular x)
    (ho : x.order = 0) (hs : x.Settled stage) (ht : Unaided stage x.traced t)
    (ha : Unaided next x a) (hb : Unaided next a.traced b) : Unaided next t b := by
  cases hm : x.isScalar with
  | true =>
    rw [traced_of_isScalar hm] at ht
    obtain rfl := ht.unique (unaided_scalar hm hx.neat)
    obtain rfl := ha.unique (unaided_scalar hm hx.neat)
    rwa [traced_of_isScalar hm] at hb
  | false =>
    obtain ⟨hn, -⟩ := hx
    induction x, hn using Expr.neat_induction with
    | null =>
      obtain rfl := ha.eq_null
      obtain rfl := hb.eq_null
      rw [ht.eq_null]
      exact hb
    | literal y => cases hm
    | unscaled v hv => exact unaided_next_of_unscaled hstage hnext hv hm ho hs ht ha hb
    | scale u v hx hv _ =>
      have hu := hx.2.2.scalar
      have hmv : v.isScalar = false := by simpa [Expr.isScalar, hu] using hm
      have hov : v.order = 0 := by
        simp only [Expr.order] at ho
        omega
      have hreg : Regular v := ⟨hv.neat, by omega⟩
      have hsv := (Expr.settled_iff.1 hs).2 v (.tail _ (.head _))
      obtain ⟨t', ht'⟩ := exists_unaided stage hreg.traced
      obtain ⟨a', ha'⟩ := exists_unaided next hreg
      have hsa := ha'.settles hreg.order_le
      have hrega := hsa.toLowering.regular hreg
      obtain ⟨b', hb'⟩ := exists_unaided next hrega.traced
      have htb := unaided_next_of_unscaled hstage hnext hv hmv hov hsv ht' ha' hb'
      rw [← hx.tidied] at ht ha
      rw [ht.unique (unaided_traced_times hu hx.1 hreg hsv ht')]
      obtain rfl := ha.unique (unaided_times hu hx.1 hreg ha')
      rw [hb.unique (unaided_traced_times hu hx.1 hrega hsa.settled hb')]
      have hst := ht'.settles hreg.traced.order_le
      exact unaided_times hu hx.1 (hst.toLowering.regular hreg.traced) htb

end Canonical

end TraceCalculus
