import TraceCalculus.Proofs.Constructors
import TraceCalculus.Proofs.Congruence
import TraceCalculus.Proofs.Visiting

/-! # What a pattern matches, and what replaces it

An expression that matches a pattern is congruent to an instance of it
(`Expr.congruent_of_matchAgainst`): the pattern with what its variables have taken in their place,
where a differential in the pattern is left out, since it only asks for a differential somewhere in
what it faces. Over exact scalars it is that instance (`Expr.instantiate_of_matchAgainst`). What
matching does is said once (`Expr.Matched`), and what it keeps follows by induction on that.

A rule replaces an instance of its pattern by the instance of its replacement, built with the
constructors that simplify (`RuleMatch.output_eq`, `Rule.apply_eq_iff_substitutes`). How the two
instances of a replacement compare is said once too (`Expr.Filled`). The latter stands for every value
of the former (`Expr.Filled.stands`), so a rule keeps values if they are kept between the two
instances, with nothing simplified.
-/

set_option autoImplicit false

namespace TraceCalculus

variable {S : Type}

/-- What a variable has taken in `σ` it has taken in `τ`. -/
def Assignment.Within (σ τ : Assignment S) : Prop :=
  ∀ name e, σ.get? name = some e → τ.get? name = some e

theorem Assignment.Within.refl (σ : Assignment S) : σ.Within σ := fun _ _ h => h

theorem Assignment.Within.trans {ρ σ τ : Assignment S} (h : ρ.Within σ) (h' : σ.Within τ) :
    ρ.Within τ :=
  fun name e he => h' name e (h name e he)

theorem Assignment.Within.isSome {σ τ : Assignment S} (h : σ.Within τ) {name : String}
    (hs : (σ.get? name).isSome = true) : (τ.get? name).isSome = true := by
  obtain ⟨x, hx⟩ := Option.isSome_iff_exists.1 hs
  rw [h name x hx]
  rfl

/-- What the variables have taken satisfies `P`. -/
def Assignment.All (P : Expr S → Prop) (σ : Assignment S) : Prop :=
  ∀ name e, σ.get? name = some e → P e

/-- The pattern with what its variables have taken in their place, and nothing simplified.
Differentials are left out. -/
def Expr.instantiate (σ : Assignment S) : Expr S → Expr S
  | .var name => (σ.get? name).getD (.var name)
  | .scalarVar name => (σ.get? name).getD (.scalarVar name)
  | .literal value => .literal value
  | .null => .null
  | .differential inner => inner.instantiate σ
  | .add a b => .add (a.instantiate σ) (b.instantiate σ)
  | .sub a b => .sub (a.instantiate σ) (b.instantiate σ)
  | .scale a b => .scale (a.instantiate σ) (b.instantiate σ)
  | .matMul a b => .matMul (a.instantiate σ) (b.instantiate σ)
  | .trace a => .trace (a.instantiate σ)
  | .transpose a => .transpose (a.instantiate σ)

/-- There is a differential in what each differential of the pattern faces, and each scalar variable
faces a scalar. -/
def Expr.Faces (σ : Assignment S) : Expr S → Prop
  | .scalarVar name => ((σ.get? name).getD (.scalarVar name)).isScalar = true
  | .differential inner => (inner.instantiate σ).hasDifferential = true ∧ inner.Faces σ
  | .add a b | .sub a b | .scale a b | .matMul a b => a.Faces σ ∧ b.Faces σ
  | .trace a | .transpose a => a.Faces σ
  | _ => True

section Matching

variable [Scalar S] [CongruentScalar S]

omit [CongruentScalar S] in
/-- A variable that takes an expression leaves what the others have taken. -/
theorem Assignment.within_of_assign {σ τ : Assignment S} {name : String} {e : Expr S}
    (h : σ.assign name e = .ok τ) : σ.Within τ := by
  unfold Assignment.assign at h
  split at h
  case h_1 hn =>
    cases h
    intro other x hx
    have hne : (other == name) = false := by
      rw [beq_eq_false_iff_ne]
      rintro rfl
      rw [hn] at hx
      cases hx
    rw [Assignment.get?, List.lookup_cons, hne]
    exact hx
  case h_2 =>
    split at h <;> cases h
    exact .refl σ

theorem Assignment.assign_eq_ok {σ τ : Assignment S} {name : String} {e : Expr S}
    (h : σ.assign name e = .ok τ) : ∃ taken, τ.get? name = some taken ∧ taken.Congruent e := by
  unfold Assignment.assign at h
  split at h
  case h_1 =>
    cases h
    exact ⟨e, List.lookup_cons_self, .refl e⟩
  case h_2 taken hn =>
    split at h
    case isTrue heq =>
      cases h
      exact ⟨taken, hn, .of_beq heq⟩
    case isFalse => cases h

omit [CongruentScalar S] in
theorem Assignment.isSome_of_assign {σ τ : Assignment S} {name : String} {e : Expr S}
    (h : σ.assign name e = .ok τ) : (τ.get? name).isSome = true := by
  unfold Assignment.assign at h
  split at h
  case h_1 =>
    cases h
    rw [Assignment.get?, List.lookup_cons_self]
    rfl
  case h_2 taken hn =>
    split at h <;> cases h
    rw [hn]
    rfl

omit [CongruentScalar S] in
theorem Assignment.eq_or_isSome_of_assign {σ τ : Assignment S} {name other : String} {e : Expr S}
    (h : σ.assign name e = .ok τ) (hs : (τ.get? other).isSome = true) :
    other = name ∨ (σ.get? other).isSome = true := by
  unfold Assignment.assign at h
  split at h
  case h_1 =>
    cases h
    rw [Assignment.get?, List.lookup_cons] at hs
    split at hs
    case h_1 heq => exact .inl (beq_iff_eq.1 heq)
    case h_2 => exact .inr hs
  case h_2 =>
    split at h <;> cases h
    exact .inr hs

namespace Expr

/-- The ways to match: from `σ`, the variables of the pattern get to `τ`. -/
inductive Matched : Expr S → Expr S → Assignment S → Assignment S → Prop
  | var {name : String} {e : Expr S} {σ τ : Assignment S} :
      σ.assign name e = .ok τ → Matched (.var name) e σ τ
  | scalarVar {name : String} {e : Expr S} {σ τ : Assignment S} :
      e.isScalar = true → σ.assign name e = .ok τ → Matched (.scalarVar name) e σ τ
  | differential {p e : Expr S} {σ τ : Assignment S} :
      e.hasDifferential = true → Matched p e σ τ → Matched (.differential p) e σ τ
  | literal {x y : S} {σ : Assignment S} : (x == y) = true → Matched (.literal x) (.literal y) σ σ
  | null {σ : Assignment S} : Matched .null .null σ σ
  | trace {p e : Expr S} {σ τ : Assignment S} :
      Matched p e σ τ → Matched (.trace p) (.trace e) σ τ
  | transpose {p e : Expr S} {σ τ : Assignment S} :
      Matched p e σ τ → Matched (.transpose p) (.transpose e) σ τ
  | add {p q a b : Expr S} {ρ σ τ : Assignment S} :
      Matched p a ρ σ → Matched q b σ τ → Matched (.add p q) (.add a b) ρ τ
  | sub {p q a b : Expr S} {ρ σ τ : Assignment S} :
      Matched p a ρ σ → Matched q b σ τ → Matched (.sub p q) (.sub a b) ρ τ
  | scale {p q a b : Expr S} {ρ σ τ : Assignment S} :
      Matched p a ρ σ → Matched q b σ τ → Matched (.scale p q) (.scale a b) ρ τ
  | matMul {p q a b : Expr S} {ρ σ τ : Assignment S} :
      Matched p a ρ σ → Matched q b σ τ → Matched (.matMul p q) (.matMul a b) ρ τ

omit [CongruentScalar S] in
theorem Matched.of_matchFrom {p e : Expr S} {σ τ : Assignment S} (h : p.matchFrom e σ = .ok τ) :
    p.Matched e σ τ := by
  induction p generalizing e σ τ with
  | var => exact .var h
  | scalarVar =>
    simp only [matchFrom] at h
    split at h
    case isTrue hs => exact .scalarVar hs h
    case isFalse => cases h
  | differential p ih =>
    simp only [matchFrom] at h
    split at h
    case isTrue hd => exact .differential hd (ih h)
    case isFalse => cases h
  | literal =>
    cases e <;> simp only [matchFrom] at h <;> try cases h
    split at h <;> cases h
    exact .literal ‹_›
  | null =>
    cases e <;> cases h
    exact .null
  | trace p ih | transpose p ih =>
    cases e <;> simp only [matchFrom] at h <;> try cases h
    constructor
    exact ih h
  | add p q ihp ihq | sub p q ihp ihq | scale p q ihp ihq | matMul p q ihp ihq =>
    cases e <;> simp only [matchFrom] at h <;> try cases h
    obtain ⟨ρ, hp, hq⟩ := bind_eq_ok h
    constructor
    · exact ihp hp
    · exact ihq hq

omit [CongruentScalar S] in
/-- Matching only adds to an assignment. -/
theorem Matched.within {p e : Expr S} {σ τ : Assignment S} (h : p.Matched e σ τ) : σ.Within τ := by
  induction h with
  | var h | scalarVar _ h => exact Assignment.within_of_assign h
  | literal | null => exact .refl _
  | differential _ _ ih | trace _ ih | transpose _ ih => exact ih
  | add _ _ ihp ihq | sub _ _ ihp ihq | scale _ _ ihp ihq | matMul _ _ ihp ihq =>
    exact ihp.trans ihq

/-- The expression is congruent to the instance of the pattern under whatever is added later. -/
theorem Matched.congruent {p e : Expr S} {σ σ' τ : Assignment S} (h : p.Matched e σ σ')
    (hτ : σ'.Within τ) : (p.instantiate τ).Congruent e := by
  induction h with
  | var h | scalarVar _ h =>
    obtain ⟨taken, hn, hc⟩ := Assignment.assign_eq_ok h
    rw [instantiate, hτ _ _ hn, Option.getD_some]
    exact hc
  | literal h => exact .literal (CongruentScalar.of_beq h)
  | null => exact .null
  | differential _ _ ih => exact ih hτ
  | trace _ ih => exact .trace (ih hτ)
  | transpose _ ih => exact .transpose (ih hτ)
  | add _ hq ihp ihq => exact .add (ihp (hq.within.trans hτ)) (ihq hτ)
  | sub _ hq ihp ihq => exact .sub (ihp (hq.within.trans hτ)) (ihq hτ)
  | scale _ hq ihp ihq => exact .scale (ihp (hq.within.trans hτ)) (ihq hτ)
  | matMul _ hq ihp ihq => exact .matMul (ihp (hq.within.trans hτ)) (ihq hτ)

theorem Matched.faces {p e : Expr S} {σ σ' τ : Assignment S} (h : p.Matched e σ σ')
    (hτ : σ'.Within τ) : p.Faces τ := by
  induction h with
  | var | literal | null => trivial
  | scalarVar hs h =>
    obtain ⟨taken, hn, hc⟩ := Assignment.assign_eq_ok h
    rw [Faces, hτ _ _ hn, Option.getD_some, hc.isScalar_eq]
    exact hs
  | differential hd h ih =>
    refine ⟨?_, ih hτ⟩
    rw [hasDifferential, (h.congruent hτ).contains_eq]
    exact hd
  | trace _ ih | transpose _ ih => exact ih hτ
  | add _ hq ihp ihq | sub _ hq ihp ihq | scale _ hq ihp ihq | matMul _ hq ihp ihq =>
    exact ⟨ihp (hq.within.trans hτ), ihq hτ⟩

theorem congruent_of_matchAgainst {p e : Expr S} {σ : Assignment S}
    (h : e.matchAgainst p = .ok σ) : (p.instantiate σ).Congruent e :=
  (Matched.of_matchFrom h).congruent (.refl σ)

theorem faces_of_matchAgainst {p e : Expr S} {σ : Assignment S} (h : e.matchAgainst p = .ok σ) :
    p.Faces σ :=
  (Matched.of_matchFrom h).faces (.refl σ)

/-! ## Subexpressions of congruent expressions -/

theorem Congruent.exists_mem_children {a b y : Expr S} (h : a.Congruent b) (hy : y ∈ b.children) :
    ∃ x ∈ a.children, x.Congruent y := by
  cases h <;> simp only [children, List.mem_cons, List.not_mem_nil, or_false] at hy
  case differential h | trace h | transpose h => exact ⟨_, .head _, hy ▸ h⟩
  case add ha hb | sub ha hb | scale ha hb | matMul ha hb =>
    rcases hy with rfl | rfl
    · exact ⟨_, .head _, ha⟩
    · exact ⟨_, .tail _ (.head _), hb⟩

/-- What cannot tell congruent expressions apart holds throughout both or neither. -/
theorem Congruent.forall_postOrder {a b : Expr S} {P : Expr S → Prop}
    (hP : ∀ {x y : Expr S}, P x → x.Congruent y → P y) (h : a.Congruent b)
    (ha : ∀ s ∈ a.postOrder, P s) : ∀ s ∈ b.postOrder, P s := by
  induction b using children_induction generalizing a with
  | step b ih =>
    obtain ⟨hroot, hchildren⟩ := forall_postOrder_iff.1 ha
    refine forall_postOrder_iff.2 ⟨hP hroot h, fun y hy => ?_⟩
    obtain ⟨x, hx, hxy⟩ := h.exists_mem_children hy
    exact ih y hy hxy (hchildren x hx)

/-! ## The variables of a pattern -/

omit [Scalar S] [CongruentScalar S] in
theorem mem_variableNames {e : Expr S} {name : String} :
    name ∈ e.variableNames ↔ ∃ a ∈ e.postOrder, a.name? = some name := by
  rw [variableNames, Text.Names.mem_ofList, visits_eq_postOrder, List.mem_filterMap]

omit [CongruentScalar S] in
/-- What has taken something has taken it before, or is a variable of the pattern. -/
theorem Matched.isSome_or {p e : Expr S} {σ τ : Assignment S} (h : p.Matched e σ τ) {name : String}
    (hn : (τ.get? name).isSome = true) :
    (σ.get? name).isSome = true ∨ ∃ a ∈ p.postOrder, a.name? = some name := by
  induction h with
  | var h | scalarVar _ h =>
    rcases Assignment.eq_or_isSome_of_assign h hn with rfl | hn
    · exact .inr ⟨_, self_mem_postOrder _, rfl⟩
    · exact .inl hn
  | literal | null => exact .inl hn
  | differential _ _ ih | trace _ ih | transpose _ ih =>
    rcases ih hn with hn | ⟨a, ha, hn⟩
    · exact .inl hn
    · exact .inr ⟨a, mem_postOrder_of_mem_children (.head _) ha, hn⟩
  | add _ _ ihp ihq | sub _ _ ihp ihq | scale _ _ ihp ihq | matMul _ _ ihp ihq =>
    rcases ihq hn with hn | ⟨a, ha, hn⟩
    · rcases ihp hn with hn | ⟨a, ha, hn⟩
      · exact .inl hn
      · exact .inr ⟨a, mem_postOrder_of_mem_children (.head _) ha, hn⟩
    · exact .inr ⟨a, mem_postOrder_of_mem_children (.tail _ (.head _)) ha, hn⟩

omit [CongruentScalar S] in
/-- Every variable of a pattern that matches has taken something. -/
theorem Matched.isSome {p e : Expr S} {σ τ : Assignment S} (h : p.Matched e σ τ) {a : Expr S}
    (ha : a ∈ p.postOrder) {name : String} (hn : a.name? = some name) :
    (τ.get? name).isSome = true := by
  induction h with
  | var h | scalarVar _ h =>
    obtain rfl := List.mem_singleton.1 ha
    cases hn
    exact Assignment.isSome_of_assign h
  | literal | null =>
    obtain rfl := List.mem_singleton.1 ha
    cases hn
  | differential _ _ ih | trace _ ih | transpose _ ih =>
    rcases List.mem_append.1 ha with ha | ha
    · exact ih ha
    · obtain rfl := List.mem_singleton.1 ha
      cases hn
  | add _ hq ihp ihq | sub _ hq ihp ihq | scale _ hq ihp ihq | matMul _ hq ihp ihq =>
    rcases List.mem_append.1 ha with ha | ha
    · rcases List.mem_append.1 ha with ha | ha
      · exact hq.within.isSome (ihp ha)
      · exact ihq ha
    · obtain rfl := List.mem_singleton.1 ha
      cases hn

omit [CongruentScalar S] in
/-- A pattern that matches from the start leaves just its variables with something. -/
theorem isSome_of_matchAgainst {p e : Expr S} {σ : Assignment S} (h : e.matchAgainst p = .ok σ)
    (name : String) : (σ.get? name).isSome = true ↔ name ∈ p.variableNames := by
  have hm := Matched.of_matchFrom h
  rw [mem_variableNames]
  constructor
  · intro hn
    exact (hm.isSome_or hn).resolve_left nofun
  · rintro ⟨a, ha, hn⟩
    exact hm.isSome ha hn

omit [Scalar S] [CongruentScalar S] in
theorem hasDifferential_of_isScalar {e : Expr S} (h : e.isScalar = true) :
    e.hasDifferential = false := by
  induction e with
  | scale s b ihs ihb =>
    simp only [isScalar, Bool.and_eq_true] at h
    simp [contains, ihs h.1, ihb h.2]
  | literal | scalarVar => rfl
  | _ => cases h

omit [CongruentScalar S] in
theorem isScalar_times {a b : Expr S} (ha : a.isScalar = true) (hb : b.isScalar = true) :
    (a * b).isScalar = true :=
  (product_times a b).isScalar ha hb

end Expr

omit [CongruentScalar S] in
theorem Assignment.All.assign {P : Expr S → Prop} {σ τ : Assignment S} {name : String} {e : Expr S}
    (hσ : σ.All P) (he : P e) (h : σ.assign name e = .ok τ) : τ.All P := by
  unfold Assignment.assign at h
  split at h
  case h_1 =>
    cases h
    intro other x hx
    rw [Assignment.get?, List.lookup_cons] at hx
    split at hx
    · cases hx
      exact he
    · exact hσ other x hx
  case h_2 =>
    split at h <;> cases h
    exact hσ

omit [CongruentScalar S] in
/-- A variable takes a subexpression of what is matched. -/
theorem Assignment.All.matchFrom {P : Expr S → Prop} (hP : ∀ {a e}, P e → a ∈ e.children → P a)
    {p e : Expr S} {σ τ : Assignment S} (hσ : σ.All P) (he : P e)
    (h : p.matchFrom e σ = .ok τ) : τ.All P := by
  replace h := Expr.Matched.of_matchFrom h
  induction h with
  | var h | scalarVar _ h => exact hσ.assign he h
  | differential _ _ ih => exact ih hσ he
  | literal | null => exact hσ
  | trace _ ih | transpose _ ih => exact ih hσ (hP he (.head _))
  | add _ _ ihp ihq | sub _ _ ihp ihq | scale _ _ ihp ihq | matMul _ _ ihp ihq =>
    exact ihq (ihp hσ (hP he (.head _))) (hP he (.tail _ (.head _)))

/-! ## The matches of a rule set -/

omit [Scalar S] [CongruentScalar S] in
theorem RuleMatch.mem_insert {m n : RuleMatch S} {l : List (RuleMatch S)} :
    m ∈ RuleMatch.insert n l ↔ m = n ∨ m ∈ l := by
  induction l with
  | nil => simp [RuleMatch.insert]
  | cons k l ih =>
    unfold RuleMatch.insert
    split
    · simp
    · simp only [List.mem_cons, ih]
      exact or_left_comm

omit [Scalar S] [CongruentScalar S] in
theorem RuleMatch.mem_foldr_insert {m : RuleMatch S} {l : List (RuleMatch S)} :
    m ∈ l.foldr RuleMatch.insert [] ↔ m ∈ l := by
  induction l with
  | nil => rfl
  | cons n l ih => rw [List.foldr_cons, RuleMatch.mem_insert, ih, List.mem_cons]

omit [CongruentScalar S] in
/-- No match is discarded for a variable without anything. -/
theorem RuleMatch.of?_eq_some {e : Expr S} {rule : Rule S} {index : Nat} {m : RuleMatch S} :
    RuleMatch.of? e rule index = some m ↔
      m.rule = rule ∧ m.index = index ∧ e.matchAgainst rule.pattern = .ok m.assignment := by
  unfold RuleMatch.of?
  cases h : e.matchAgainst rule.pattern with
  | error => simp
  | ok σ =>
    have hall : rule.variableNames.all (σ.get? · |>.isSome) = true :=
      List.all_eq_true.2 fun name hname => (Expr.isSome_of_matchAgainst h name).2 hname
    simp only [hall, if_true, Option.some.injEq, Except.ok.injEq]
    constructor
    · rintro rfl
      exact ⟨rfl, rfl, rfl⟩
    · rintro ⟨rfl, rfl, rfl⟩
      rfl

omit [CongruentScalar S] in
/-- The matches of a rule set are those of its rules, each with its index. -/
theorem mem_ruleMatches_iff {e : Expr S} {rules : List (Rule S)} {m : RuleMatch S} :
    m ∈ ruleMatches e rules ↔
      rules[m.index]? = some m.rule ∧ e.matchAgainst m.rule.pattern = .ok m.assignment := by
  rw [ruleMatches, RuleMatch.mem_foldr_insert, List.mem_filterMap]
  constructor
  · rintro ⟨⟨rule, index⟩, hr, hm⟩
    obtain ⟨hrule, hindex, hmatch⟩ := RuleMatch.of?_eq_some.1 hm
    subst hrule hindex
    exact ⟨List.mem_zipIdx_iff_getElem?.1 hr, hmatch⟩
  · rintro ⟨hr, hm⟩
    exact ⟨(m.rule, m.index), List.mem_zipIdx_iff_getElem?.2 hr,
      RuleMatch.of?_eq_some.2 ⟨rfl, rfl, hm⟩⟩

omit [CongruentScalar S] in
theorem mem_ruleMatches {e : Expr S} {rules : List (Rule S)} {m : RuleMatch S}
    (h : m ∈ ruleMatches e rules) :
    m.rule ∈ rules ∧ e.matchAgainst m.rule.pattern = .ok m.assignment := by
  obtain ⟨hr, hm⟩ := mem_ruleMatches_iff.1 h
  exact ⟨List.mem_of_getElem? hr, hm⟩

omit [CongruentScalar S] in
theorem RuleMatch.output_eq (m : RuleMatch S) :
    m.output = m.rule.replacement.subst m.assignment :=
  Template.fill_ofExpr m.rule.replacement m.assignment

omit [CongruentScalar S] in
/-- A pattern that matches makes a match of its rule. -/
theorem exists_ruleMatch {e o : Expr S} {rules : List (Rule S)} {rule : Rule S} (index : Nat)
    (σ : Assignment S) (hr : rules[index]? = some rule) (hm : e.matchAgainst rule.pattern = .ok σ)
    (ho : rule.replacement.subst σ = o) : ∃ m ∈ ruleMatches e rules, m.output = o :=
  ⟨⟨rule, index, σ⟩, mem_ruleMatches_iff.2 ⟨hr, hm⟩, (RuleMatch.output_eq _).trans ho⟩

end Matching

/-! ## Filling in a replacement -/

/-- What it means to put what the variables have taken in their place, and to build every node anew
with the constructors that simplify. One constructor makes both products. -/
structure Substitutes [Scalar S] (σ : Assignment S) (f : Expr S → Expr S) : Prop where
  taken : ∀ name e, σ.get? name = some e → f (.var name) = e ∧ f (.scalarVar name) = e
  untaken : ∀ name, σ.get? name = none →
    f (.var name) = .var name ∧ f (.scalarVar name) = .scalarVar name
  literal : ∀ value, f (.literal value) = .literal value
  null : f .null = .null
  differential : ∀ a, f (.differential a) = .differential (f a)
  trace : ∀ a, f (.trace a) = (f a).traced
  transpose : ∀ a, f (.transpose a) = (f a).transposed
  add : ∀ a b, f (.add a b) = f a + f b
  sub : ∀ a b, f (.sub a b) = f a - f b
  scale : ∀ a b, f (.scale a b) = f a * f b
  matMul : ∀ a b, f (.matMul a b) = f a * f b

/-- Filling in the template of a replacement is substitution, whatever the variables have taken. -/
theorem Rule.apply_eq_iff_substitutes [Scalar S] [NumericScalar S] (pattern : Expr S)
    (σ : Assignment S) (f : Expr S → Expr S) :
    (∀ r, (Rule.mk pattern r).apply σ = f r) ↔ Substitutes σ f := by
  have happly : ∀ r, (Rule.mk pattern r).apply σ = r.subst σ := fun r => Template.fill_ofExpr r σ
  simp only [happly]
  constructor
  · intro h
    obtain rfl : Expr.subst σ = f := funext h
    exact
      { taken := fun name e hn => by simp [Expr.subst, hn]
        untaken := fun name hn => by simp [Expr.subst, hn]
        literal := fun _ => rfl
        null := rfl
        differential := fun a => by rw [Expr.subst, Expr.asOperand_numeric]
        trace := fun _ => rfl
        transpose := fun _ => rfl
        add := fun _ _ => rfl
        sub := fun _ _ => rfl
        scale := fun _ _ => rfl
        matMul := fun _ _ => rfl }
  · intro h r
    induction r with
    | var name | scalarVar name =>
      cases hn : σ.get? name with
      | none => simp [Expr.subst, hn, h.untaken name hn]
      | some e => simp [Expr.subst, hn, h.taken name e hn]
    | literal x => exact (h.literal x).symm
    | null => exact h.null.symm
    | differential a ih => rw [Expr.subst, ih, Expr.asOperand_numeric, h.differential]
    | trace a ih => rw [Expr.subst, ih, h.trace]
    | transpose a ih => rw [Expr.subst, ih, h.transpose]
    | add a b iha ihb => rw [Expr.subst, iha, ihb, h.add]
    | sub a b iha ihb => rw [Expr.subst, iha, ihb, h.sub]
    | scale a b iha ihb => rw [Expr.subst, iha, ihb, h.scale]
    | matMul a b iha ihb => rw [Expr.subst, iha, ihb, h.matMul]

/-! ## What filling in makes of an instance -/

namespace Expr

/-- Every factor of a scaled node is a variable. -/
def LetterFactors : Expr S → Prop
  | .add a b | .sub a b | .matMul a b => a.LetterFactors ∧ b.LetterFactors
  | .scale k b => (∃ name, k = .scalarVar name) ∧ b.LetterFactors
  | .trace a | .transpose a => a.LetterFactors
  | _ => True

/-- The replacements of rules are like this. -/
structure Fillable (σ : Assignment S) (r : Expr S) : Prop where
  letterFactors : r.LetterFactors
  hasDifferential : r.hasDifferential = false
  faces : r.Faces σ

theorem Fillable.of_mem_children {σ : Assignment S} {r a : Expr S} (h : r.Fillable σ)
    (ha : a ∈ r.children) : a.Fillable σ := by
  obtain ⟨hl, hd, hf⟩ := h
  cases r with
  | scale k b =>
    obtain ⟨⟨name, rfl⟩, hl⟩ := hl
    simp only [contains, Bool.or_eq_false_iff] at hd
    simp only [children, List.mem_cons, List.not_mem_nil, or_false] at ha
    rcases ha with rfl | rfl
    · exact ⟨trivial, hd.1.2, hf.1⟩
    · exact ⟨hl, hd.2, hf.2⟩
  | add | sub | matMul =>
    simp only [contains, Bool.or_eq_false_iff] at hd
    simp only [children, List.mem_cons, List.not_mem_nil, or_false] at ha
    rcases ha with rfl | rfl
    · exact ⟨hl.1, hd.1.2, hf.1⟩
    · exact ⟨hl.2, hd.2, hf.2⟩
  | trace | transpose =>
    simp only [contains, Bool.or_eq_false_iff] at hd
    obtain rfl := List.mem_singleton.1 ha
    exact ⟨hl, hd.2, hf⟩
  | differential => cases hd
  | _ => cases ha

variable [Scalar S] {P : Expr S → Prop}

/-- `b` is `a` built once more by the constructors that simplify. The parts that are kept have the
property `P`, and so have the factors. -/
inductive Filled (P : Expr S → Prop) : Expr S → Expr S → Prop
  | kept {a : Expr S} (ha : P a) : Filled P a a
  | add {a b a' b' : Expr S} (ha : Filled P a a') (hb : Filled P b b') :
    Filled P (.add a b) (a' + b')
  | sub {a b a' b' : Expr S} (ha : Filled P a a') (hb : Filled P b b') :
    Filled P (.sub a b) (a' - b')
  | scale {k b b' : Expr S} (hk : k.isScalar = true) (hP : P k) (hb : Filled P b b') :
    Filled P (.scale k b) (k * b')
  | matMul {a b a' b' : Expr S} (ha : Filled P a a') (hb : Filled P b b') :
    Filled P (.matMul a b) (a' * b')
  | trace {a a' : Expr S} (ha : Filled P a a') : Filled P (.trace a) a'.traced
  | transpose {a a' : Expr S} (ha : Filled P a a') : Filled P (.transpose a) a'.transposed

/-- All that is known of filling in a replacement: what follows argues by induction on it. -/
theorem filled_subst {σ : Assignment S} {r : Expr S} (hleaf : ∀ e : Expr S, e.children = [] → P e)
    (hσ : σ.All P) (h : r.Fillable σ) : Filled P (r.instantiate σ) (r.subst σ) := by
  have hget : ∀ name (leaf : Expr S), leaf.children = [] → P ((σ.get? name).getD leaf) := by
    intro name leaf hl
    cases hn : σ.get? name with
    | none => exact hleaf leaf hl
    | some x => exact hσ name x hn
  induction r with
  | var name | scalarVar name => exact .kept (hget name _ rfl)
  | literal | null => exact .kept (hleaf _ rfl)
  | differential => cases h.hasDifferential
  | add a b iha ihb =>
    exact .add (iha (h.of_mem_children (.head _))) (ihb (h.of_mem_children (.tail _ (.head _))))
  | sub a b iha ihb =>
    exact .sub (iha (h.of_mem_children (.head _))) (ihb (h.of_mem_children (.tail _ (.head _))))
  | scale k b _ ihb =>
    obtain ⟨name, rfl⟩ := h.letterFactors.1
    exact .scale h.faces.1 (hget name _ rfl) (ihb (h.of_mem_children (.tail _ (.head _))))
  | matMul a b iha ihb =>
    exact .matMul (iha (h.of_mem_children (.head _))) (ihb (h.of_mem_children (.tail _ (.head _))))
  | trace a iha => exact .trace (iha (h.of_mem_children (.head _)))
  | transpose a iha => exact .transpose (iha (h.of_mem_children (.head _)))

end Expr

/-! ## Exact scalars -/

namespace Expr

variable [ExactScalar S]

theorem instantiate_of_matchAgainst {p e : Expr S} {σ : Assignment S}
    (h : e.matchAgainst p = .ok σ) : p.instantiate σ = e :=
  (congruent_of_matchAgainst h).eq

/-- What is built with the constructors that simplify stands for what the plain expression means. -/
theorem Filled.stands {I : Reading S} {P : Expr S → Prop} {a b : Expr S} {v : Value S}
    (h : Filled P a b) (hv : Means I a v) : Stands I b v := by
  induction h generalizing v with
  | kept => exact hv.stands
  | add _ _ iha ihb =>
    cases hv with | add ha hb h => exact (iha ha).plus (ihb hb) h
  | sub _ _ iha ihb =>
    cases hv with | sub ha hb h => exact (iha ha).minus (ihb hb) h
  | scale hk _ _ ihb =>
    cases hv with | scale _ hs hb => exact Stands.scaled hk hs.stands (ihb hb)
  | matMul _ _ iha ihb =>
    cases hv with
    | matMul ha hb hk h => exact (iha ha).times (ihb hb) h fun hs => .inr (.inr (hk hs))
  | trace _ iha =>
    cases hv with | trace ha h => exact (iha ha).traced h
  | transpose _ iha =>
    cases hv with | transpose ha => exact (iha ha).transposed

theorem Means.subst {I : Reading S} {r : Expr S} {σ : Assignment S} {v : Value S}
    (h : Means I (r.instantiate σ) v) (hr : r.Fillable σ) : Stands I (r.subst σ) v :=
  (filled_subst (P := fun _ => True) (fun _ _ => trivial) (fun _ _ _ => trivial) hr).stands h

end Expr

end TraceCalculus
