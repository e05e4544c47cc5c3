import TraceCalculus.Proofs.Doubles
import TraceCalculus.Proofs.Simplified

/-! # Matching finds every instance

An expression is an instance of a pattern (`Expr.IsInstance`) if it is the pattern with an expression
in the place of each variable, where the differentials of the pattern are left out. A scalar variable
must stand for a scalar, and what a differential of the pattern faces must have a differential in it.

Where every subexpression equals itself, a pattern matches its instances and nothing else, and what
the variables have taken is, up to `==`, the only choice there is (`Expr.matchAgainst_instances`). The
rules of a rule set that match are then those that the expression is an instance of. They come in an
order without ties (`RuleMatch.Before`).

Completeness is an induction over the pattern in which the variables have taken some expressions
already: these are congruent to those of the instance (`Assignment.Agrees`), and each step keeps that.
-/

set_option autoImplicit false

namespace TraceCalculus

variable {S : Type}

namespace Expr

/-- The pattern with `b name` in the place of each variable, and without its differentials. -/
def filledWith (b : String → Expr S) : Expr S → Expr S
  | .var name | .scalarVar name => b name
  | .literal value => .literal value
  | .null => .null
  | .differential p => p.filledWith b
  | .add p q => .add (p.filledWith b) (q.filledWith b)
  | .sub p q => .sub (p.filledWith b) (q.filledWith b)
  | .scale p q => .scale (p.filledWith b) (q.filledWith b)
  | .matMul p q => .matMul (p.filledWith b) (q.filledWith b)
  | .trace p => .trace (p.filledWith b)
  | .transpose p => .transpose (p.filledWith b)

/-- What the differentials of a pattern face in an expression of its shape. -/
def faced : Expr S → Expr S → List (Expr S)
  | .differential p, e => e :: p.faced e
  | .add p q, .add a b | .sub p q, .sub a b | .scale p q, .scale a b | .matMul p q, .matMul a b =>
    p.faced a ++ q.faced b
  | .trace p, .trace a | .transpose p, .transpose a => p.faced a
  | _, _ => []

/-- The expression is the pattern with `b name` in the place of each variable. -/
structure IsInstance [Scalar S] (e p : Expr S) (b : String → Expr S) : Prop where
  same : (e == p.filledWith b) = true
  scalars : ∀ name, .scalarVar name ∈ p.postOrder → (b name).isScalar = true
  differentials : ∀ s ∈ p.faced e, s.hasDifferential = true

end Expr

/-- What the variables have taken is congruent to what `b` has for them. -/
def Assignment.Agrees [Scalar S] [CongruentScalar S] (σ : Assignment S) (b : String → Expr S) :
    Prop :=
  ∀ name e, σ.get? name = some e → e.Congruent (b name)

variable [Scalar S] [CongruentScalar S] {b : String → Expr S} {σ τ : Assignment S} {p e : Expr S}

/-! ## What matches is an instance -/

namespace Expr

omit [Scalar S] [CongruentScalar S] in
/-- An assignment that has something for each variable of the pattern leaves none in its place. -/
theorem filledWith_eq_instantiate
    (h : ∀ a ∈ p.postOrder, ∀ name, a.name? = some name → σ.get? name = some (b name)) :
    p.filledWith b = p.instantiate σ := by
  induction p with
  | var name | scalarVar name =>
    rw [filledWith, instantiate, h _ (self_mem_postOrder _) name rfl, Option.getD_some]
  | literal | null => rfl
  | differential p ih =>
    exact ih fun a ha => h a (mem_postOrder_of_mem_children (.head _) ha)
  | trace p ih | transpose p ih =>
    simp only [filledWith, instantiate]
    rw [ih fun a ha => h a (mem_postOrder_of_mem_children (.head _) ha)]
  | add p q ihp ihq | sub p q ihp ihq | scale p q ihp ihq | matMul p q ihp ihq =>
    simp only [filledWith, instantiate]
    rw [ihp fun a ha => h a (mem_postOrder_of_mem_children (.head _) ha),
      ihq fun a ha => h a (mem_postOrder_of_mem_children (.tail _ (.head _)) ha)]

omit [Scalar S] [CongruentScalar S] in
theorem Faces.isScalar {name : String} (h : p.Faces σ) (hp : .scalarVar name ∈ p.postOrder) :
    ((σ.get? name).getD (.scalarVar name)).isScalar = true := by
  induction p with
  | var | literal | null => simp [postOrder] at hp
  | scalarVar other =>
    obtain rfl : name = other := by simpa [postOrder] using hp
    exact h
  | differential p ih => exact ih h.2 (by simpa [postOrder] using hp)
  | trace p ih | transpose p ih => exact ih h (by simpa [postOrder] using hp)
  | add p q ihp ihq | sub p q ihp ihq | scale p q ihp ihq | matMul p q ihp ihq =>
    rcases (by simpa [postOrder] using hp : _ ∈ p.postOrder ∨ _ ∈ q.postOrder) with hp | hp
    · exact ihp h.1 hp
    · exact ihq h.2 hp

theorem Faces.hasDifferential (h : p.Faces σ) (hc : (p.instantiate σ).Congruent e) :
    ∀ s ∈ p.faced e, s.hasDifferential = true := by
  induction p generalizing e with
  | var | scalarVar | literal | null => simp [faced]
  | differential p ih =>
    refine List.forall_mem_cons.2 ⟨?_, ih h.2 hc⟩
    rw [Expr.hasDifferential, ← Congruent.contains_eq .differential (a := p.instantiate σ) hc]
    exact h.1
  | trace p ih | transpose p ih =>
    cases hc
    exact ih h ‹_›
  | add p q ihp ihq | sub p q ihp ihq | scale p q ihp ihq | matMul p q ihp ihq =>
    cases hc
    exact List.forall_mem_append.2 ⟨ihp h.1 ‹_›, ihq h.2 ‹_›⟩

/-- What matches is the instance with what the variables have taken. -/
theorem isInstance_of_matchAgainst (he : (e == e) = true) (h : e.matchAgainst p = .ok σ)
    (hb : ∀ name x, σ.get? name = some x → b name = x) : e.IsInstance p b := by
  have hbound : ∀ a ∈ p.postOrder, ∀ name, a.name? = some name → σ.get? name = some (b name) := by
    intro a ha name hn
    obtain ⟨x, hx⟩ := Option.isSome_iff_exists.1
      ((isSome_of_matchAgainst h name).2 (mem_variableNames.2 ⟨a, ha, hn⟩))
    rw [hx, hb name x hx]
  have hc := congruent_of_matchAgainst h
  refine ⟨?_, fun name hname => ?_, (faces_of_matchAgainst h).hasDifferential hc⟩
  · rw [filledWith_eq_instantiate hbound, Congruent.beq (.refl e) hc]
    exact he
  · have hs := (faces_of_matchAgainst h).isScalar hname
    rwa [hbound _ hname name rfl, Option.getD_some] at hs

end Expr

/-! ## What is an instance matches -/

theorem Assignment.Agrees.cons (h : σ.Agrees b) {name : String} (hc : e.Congruent (b name)) :
    Assignment.Agrees ((name, e) :: σ) b := by
  intro other x hx
  rw [Assignment.get?, List.lookup_cons] at hx
  split at hx
  case h_1 heq =>
    cases hx
    rwa [beq_iff_eq.1 heq]
  case h_2 => exact h other x hx

/-- A variable that has taken something already has taken what it faces now. -/
theorem Assignment.Agrees.exists_assign (h : σ.Agrees b) (he : (e == e) = true) {name : String}
    (hc : (b name).Congruent e) : ∃ τ, σ.assign name e = .ok τ ∧ τ.Agrees b := by
  unfold Assignment.assign
  cases hn : σ.get? name with
  | none => exact ⟨_, rfl, h.cons hc.symm⟩
  | some taken =>
    have hsame : (taken == e) = true := by
      rwa [Expr.Congruent.beq ((h name taken hn).trans hc) (.refl e)]
    exact ⟨σ, if_pos hsame, h⟩

namespace Expr

omit [CongruentScalar S] in
theorem Definite.of_mem_children {a : Expr S} (h : e.Definite) (ha : a ∈ e.children) : a.Definite :=
  fun s hs => h s (mem_postOrder_of_mem_children ha hs)

/-- What the variables have taken before does not keep an instance from matching. -/
theorem exists_matchFrom (he : e.Definite) (hc : (p.filledWith b).Congruent e)
    (hs : ∀ name, .scalarVar name ∈ p.postOrder → (b name).isScalar = true)
    (hd : ∀ s ∈ p.faced e, s.hasDifferential = true) (hσ : σ.Agrees b) :
    ∃ τ, p.matchFrom e σ = .ok τ ∧ τ.Agrees b := by
  have hself : ∀ {e : Expr S}, e.Definite → (e == e) = true := fun he => he _ (self_mem_postOrder _)
  induction p generalizing e σ with
  | var name => exact hσ.exists_assign (hself he) hc
  | scalarVar name =>
    have hscalar : e.isScalar = true := by
      rw [← hc.isScalar_eq]
      exact hs name (self_mem_postOrder _)
    rw [matchFrom, if_pos hscalar]
    exact hσ.exists_assign (hself he) hc
  | differential p ih =>
    obtain ⟨hd, hrest⟩ := List.forall_mem_cons.1 hd
    rw [matchFrom, if_pos hd]
    exact ih he hc (fun name h => hs name (mem_postOrder_of_mem_children (.head _) h)) hrest hσ
  | literal x =>
    cases hc with
    | @literal _ y hx =>
      have hsame : (x == y) = true :=
        (CongruentScalar.beq_congr hx (CongruentScalar.refl y)).trans (hself he)
      exact ⟨σ, if_pos hsame, hσ⟩
  | null =>
    cases hc
    exact ⟨σ, rfl, hσ⟩
  | trace p ih | transpose p ih =>
    cases hc
    exact ih (he.of_mem_children (.head _)) ‹_›
      (fun name h => hs name (mem_postOrder_of_mem_children (.head _) h)) hd hσ
  | add p q ihp ihq | sub p q ihp ihq | scale p q ihp ihq | matMul p q ihp ihq =>
    cases hc
    obtain ⟨hdp, hdq⟩ := List.forall_mem_append.1 hd
    obtain ⟨ρ, hρ, hρb⟩ := ihp (he.of_mem_children (.head _)) ‹_›
      (fun name h => hs name (mem_postOrder_of_mem_children (.head _) h)) hdp hσ
    obtain ⟨τ, hτ, hτb⟩ := ihq (he.of_mem_children (.tail _ (.head _))) ‹_›
      (fun name h => hs name (mem_postOrder_of_mem_children (.tail _ (.head _)) h)) hdq hρb
    refine ⟨τ, ?_, hτb⟩
    rw [matchFrom, hρ]
    exact hτ

theorem IsInstance.exists_matchAgainst (h : e.IsInstance p b) (he : e.Definite) :
    ∃ σ, e.matchAgainst p = .ok σ ∧ σ.Agrees b :=
  exists_matchFrom he (Congruent.of_beq h.same).symm h.scalars h.differentials nofun

end Expr

/-! ## The order of the matches -/

namespace RuleMatch

/-- The larger pattern comes first, and of two patterns of one size that of the earlier rule. -/
def Before (m n : RuleMatch S) : Prop :=
  n.rule.size < m.rule.size ∨ n.rule.size = m.rule.size ∧ m.index < n.index

variable {m n : RuleMatch S} {l : List (RuleMatch S)}

omit [Scalar S] [CongruentScalar S]

theorem Before.trans {k : RuleMatch S} (h : m.Before n) (h' : n.Before k) : m.Before k := by
  unfold Before at *
  omega

/-- A match goes before the larger indexes of its size. -/
theorem pairwise_insert (hl : l.Pairwise Before) (hm : ∀ n ∈ l, m.index < n.index) :
    (insert m l).Pairwise Before := by
  induction l with
  | nil => exact List.pairwise_singleton Before m
  | cons n l ih =>
    obtain ⟨hn, hrest⟩ := List.pairwise_cons.1 hl
    obtain ⟨hmn, hmrest⟩ := List.forall_mem_cons.1 hm
    unfold insert
    split
    case isTrue hsize =>
      have hbefore : m.Before n := by
        rcases hsize.lt_or_eq with hlt | heq
        · exact .inl hlt
        · exact .inr ⟨heq, hmn⟩
      exact .cons (List.forall_mem_cons.2 ⟨hbefore, fun k hk => hbefore.trans (hn k hk)⟩) hl
    case isFalse hsize =>
      refine .cons (fun k hk => ?_) (ih hrest hmrest)
      rcases mem_insert.1 hk with rfl | hk
      · exact .inl (Nat.lt_of_not_le hsize)
      · exact hn k hk

theorem pairwise_foldr_insert (hl : l.Pairwise fun m n => m.index < n.index) :
    (l.foldr insert []).Pairwise Before := by
  induction hl with
  | nil => exact .nil
  | cons hm _ ih => exact pairwise_insert ih fun n hn => hm n (mem_foldr_insert.1 hn)

end RuleMatch

omit [CongruentScalar S] in
theorem pairwise_ruleMatches (e : Expr S) (rules : List (Rule S)) :
    (ruleMatches e rules).Pairwise RuleMatch.Before := by
  have hindex : rules.zipIdx.Pairwise fun x y => x.2 < y.2 := by
    rw [← List.pairwise_map, List.zipIdx_map_snd]
    exact List.pairwise_lt_range'
  refine RuleMatch.pairwise_foldr_insert (List.pairwise_filterMap.2 (hindex.imp ?_))
  intro x y hxy m hm n hn
  obtain ⟨-, hx, -⟩ := RuleMatch.of?_eq_some.1 hm
  obtain ⟨-, hy, -⟩ := RuleMatch.of?_eq_some.1 hn
  rwa [hx, hy]

omit [CongruentScalar S] in
/-- A rule is its own only match. -/
theorem nodup_ruleMatches (e : Expr S) (rules : List (Rule S)) :
    ((ruleMatches e rules).map RuleMatch.index).Nodup := by
  rw [List.Nodup, List.pairwise_map]
  refine (pairwise_ruleMatches e rules).imp_of_mem fun {m n} hm hn hbefore heq => ?_
  have hm := (mem_ruleMatches_iff.1 hm).1
  have hn := (mem_ruleMatches_iff.1 hn).1
  have hrule : m.rule = n.rule := Option.some.inj ((heq ▸ hm).symm.trans hn)
  unfold RuleMatch.Before at hbefore
  rw [hrule] at hbefore
  omega

/-! ## Soundness and completeness -/

/-- An expression matches the patterns that it is an instance of, with the expressions of the
instance for just the variables of the pattern. Those of the rules match, each once and in order. -/
theorem Expr.matchAgainst_instances (he : e.Definite) (p : Expr S) (rules : List (Rule S)) :
    ((∃ σ, e.matchAgainst p = .ok σ) ↔ ∃ b, e.IsInstance p b) ∧
      (∀ σ, e.matchAgainst p = .ok σ →
        (∀ name, (σ.get? name).isSome = true ↔ name ∈ p.variableNames) ∧
        ∀ b, e.IsInstance p b → ∀ name x, σ.get? name = some x → (x == b name) = true) ∧
      (∀ m, m ∈ ruleMatches e rules ↔
        rules[m.index]? = some m.rule ∧ e.matchAgainst m.rule.pattern = .ok m.assignment) ∧
      (∀ index rule, rules[index]? = some rule →
        (index ∈ (ruleMatches e rules).map RuleMatch.index ↔
          ∃ b, e.IsInstance rule.pattern b)) ∧
      ((ruleMatches e rules).map RuleMatch.index).Nodup ∧
      (ruleMatches e rules).Pairwise RuleMatch.Before := by
  have hmatch : ∀ p, (∃ σ, e.matchAgainst p = .ok σ) ↔ ∃ b, e.IsInstance p b := by
    intro p
    constructor
    · rintro ⟨σ, h⟩
      refine ⟨fun name => (σ.get? name).getD .null, ?_⟩
      refine isInstance_of_matchAgainst (he e (self_mem_postOrder e)) h fun name x hx => ?_
      rw [hx, Option.getD_some]
    · rintro ⟨b, h⟩
      obtain ⟨σ, hσ, -⟩ := h.exists_matchAgainst he
      exact ⟨σ, hσ⟩
  refine ⟨hmatch p, fun σ h => ⟨isSome_of_matchAgainst h, fun b hb name x hx => ?_⟩,
    fun m => mem_ruleMatches_iff, fun index rule hr => ?_, nodup_ruleMatches e rules,
    pairwise_ruleMatches e rules⟩
  · obtain ⟨τ, hτ, hagrees⟩ := hb.exists_matchAgainst he
    obtain rfl : τ = σ := Except.ok.inj (hτ.symm.trans h)
    have hnil : Assignment.All (Definite (S := S)) [] := nofun
    have hx' : x.Definite := hnil.matchFrom Definite.of_mem_children he h name x hx
    rw [← Congruent.beq (.refl x) (hagrees name x hx)]
    exact hx' x (self_mem_postOrder x)
  · rw [← hmatch, List.mem_map]
    constructor
    · rintro ⟨m, hm, rfl⟩
      obtain ⟨hm, hok⟩ := mem_ruleMatches_iff.1 hm
      obtain rfl := Option.some.inj (hr.symm.trans hm)
      exact ⟨_, hok⟩
    · rintro ⟨σ, hσ⟩
      exact ⟨⟨rule, index, σ⟩, mem_ruleMatches_iff.2 ⟨hr, hσ⟩, rfl⟩

/-- Its two factors are zeros with different signs. -/
def zeroSum : Expr Float :=
  .add (.scale (.literal 0.0) (.var "X"))
    (.scale (.literal (-0.0)) (.trace (.matMul (.var "X") (.differential (.var "X")))))

/-- One factor for both terms, and two differentials that face the same trace. -/
def commonFactor : Rule Float where
  pattern := .add (.scale (.scalarVar "s") (.var "A"))
    (.scale (.scalarVar "s") (.differential (.differential (.var "B"))))
  replacement := .scale (.scalarVar "s") (.add (.var "A") (.var "B"))

/-- It matches every sum. -/
def turnedSum : Rule Float := ⟨.add (.var "A") (.var "B"), .add (.var "B") (.var "A")⟩

theorem Expr.matchAgainst_instances_zeroSum : zeroSum.Definite ∧
    (∃ b, zeroSum.IsInstance commonFactor.pattern b) ∧
    (∀ b, zeroSum.IsInstance commonFactor.pattern b → (.literal 0.0 == b "s") = true) ∧
    ∃ l, ruleMatches zeroSum [turnedSum, commonFactor, turnedSum] = l ∧
      l.map RuleMatch.index = [1, 0, 2] ∧ l.Pairwise RuleMatch.Before := by
  have he : zeroSum.Definite := by
    unfold Expr.Definite
    decide +kernel
  obtain ⟨hmatch, htaken, -, -, -, horder⟩ := Expr.matchAgainst_instances he commonFactor.pattern
    [turnedSum, commonFactor, turnedSum]
  have hσ : zeroSum.matchAgainst commonFactor.pattern =
      .ok [("B", .trace (.matMul (.var "X") (.differential (.var "X")))), ("A", .var "X"),
        ("s", .literal 0.0)] := rfl
  exact ⟨he, hmatch.1 ⟨_, hσ⟩, fun b hb => (htaken _ hσ).2 b hb "s" _ rfl, _, rfl,
    by decide +kernel, horder⟩

end TraceCalculus
