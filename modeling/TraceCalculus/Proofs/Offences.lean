import TraceCalculus.Formula.Meaning

/-! # The first offence of a formula

A formula stands for no expression exactly if a node of it offends (`Formula.Offends`): a reserved
name, a function that does not exist, or a differential of what is no variable. The first of these
nodes is the one that is reported (`Formula.toExpr_offence`), counted in `Formula.preorder`: each node
before its operands, and these from left to right. That terms cancel or vanish when the expression is
built hides none of them, as both operands have their meaning first.
-/

set_option autoImplicit false

namespace TraceCalculus.Formula

variable {S : Type} {distance : String → String → Nat}

/-- The nodes that are looked at for a meaning, each before its operands. What a function is called
with is among them only if the function is the trace. -/
def preorder : Formula S → List (Formula S)
  | .paren inner s => .paren inner s :: inner.preorder
  | .neg operand s => .neg operand s :: operand.preorder
  | .transpose operand s => .transpose operand s :: operand.preorder
  | .binary op opSpan lhs rhs s => .binary op opSpan lhs rhs s :: (lhs.preorder ++ rhs.preorder)
  | .call name nameSpan arg s =>
    .call name nameSpan arg s :: if name = "Tr" ∨ name = "tr" then arg.preorder else []
  | leaf => [leaf]

/-- `f.Offends distance e`: whatever stands around it, `f` by itself is refused with `e`. The distance
of names matters for the suggestions only. -/
inductive Offends (distance : String → String → Nat) : Formula S → Located MeaningError → Prop
  | name {name : String} {s : Span} (h : name ∈ reservedNames) :
      Offends distance (.symbol name s) (.on (.reservedName ⟨name⟩) s)
  | function {name : String} {nameSpan s : Span} {arg : Formula S} (h : name ∉ functionNames) :
      Offends distance (.call name nameSpan arg s) (.on (unknownFunction distance name) nameSpan)
  | differential {nameSpan s : Span} {arg : Formula S}
      (h : ∀ name place, arg.innermost ≠ .symbol name place) :
      Offends distance (.call "d" nameSpan arg s) (.on .invalidDifferential arg.innermost.span)
  | differentialName {nameSpan s place : Span} {arg : Formula S} {name : String}
      (harg : arg.innermost = .symbol name place) (h : name ∈ reservedNames) :
      Offends distance (.call "d" nameSpan arg s) (.on (.reservedName ⟨name⟩) place)

theorem Offends.exists_of_distance {f : Formula S} {e : Located MeaningError}
    (h : f.Offends distance e) (distance' : String → String → Nat) : ∃ e', f.Offends distance' e' := by
  cases h with
  | name h => exact ⟨_, .name h⟩
  | function h => exact ⟨_, .function h⟩
  | differential h => exact ⟨_, .differential h⟩
  | differentialName harg h => exact ⟨_, .differentialName harg h⟩

/-- What a name is refused with. -/
def nameOffence? (name : String) (s : Span) : Option (Located MeaningError) :=
  if name ∈ reservedNames then some (.on (.reservedName ⟨name⟩) s) else none

/-- What a differential of the formula is refused with. -/
def differentialOffence? : Formula S → Option (Located MeaningError)
  | .symbol name s => nameOffence? name s
  | other => some (.on .invalidDifferential other.span)

/-- What the formula by itself is refused with. -/
def offence? (distance : String → String → Nat) : Formula S → Option (Located MeaningError)
  | .symbol name s => nameOffence? name s
  | .call name nameSpan arg _ =>
    if name = "Tr" ∨ name = "tr" then none
    else if name = "d" then arg.innermost.differentialOffence?
    else some (.on (unknownFunction distance name) nameSpan)
  | _ => none

theorem nameOffence?_eq_some {name : String} {s : Span} {e : Located MeaningError} :
    nameOffence? name s = some e ↔ name ∈ reservedNames ∧ e = .on (.reservedName ⟨name⟩) s := by
  simp [nameOffence?, eq_comm]

theorem differentialOffence?_eq_some {f : Formula S} {e : Located MeaningError} :
    f.differentialOffence? = some e ↔
      (∃ name s, f = .symbol name s ∧ name ∈ reservedNames ∧ e = .on (.reservedName ⟨name⟩) s) ∨
        (∀ name s, f ≠ .symbol name s) ∧ e = .on .invalidDifferential f.span := by
  cases f with
  | symbol name s => simp [differentialOffence?, nameOffence?_eq_some, and_assoc]
  | _ => simp [differentialOffence?, eq_comm]

theorem offends_iff {f : Formula S} {e : Located MeaningError} :
    f.Offends distance e ↔ f.offence? distance = some e := by
  constructor
  · intro h
    cases h with
    | name h => exact nameOffence?_eq_some.2 ⟨h, rfl⟩
    | function h =>
      simp only [functionNames, List.mem_cons, List.not_mem_nil, or_false, not_or] at h
      simp [offence?, h]
    | differential h => exact differentialOffence?_eq_some.2 (.inr ⟨h, rfl⟩)
    | differentialName harg h => exact differentialOffence?_eq_some.2 (.inl ⟨_, _, harg, h, rfl⟩)
  · intro h
    cases f with
    | symbol name s =>
      obtain ⟨hname, rfl⟩ := nameOffence?_eq_some.1 h
      exact .name hname
    | call name nameSpan arg s =>
      simp only [offence?] at h
      split at h
      case isTrue => cases h
      case isFalse htrace =>
        split at h
        case isTrue hd =>
          subst hd
          obtain ⟨inner, place, harg, hinner, rfl⟩ | ⟨harg, rfl⟩ := differentialOffence?_eq_some.1 h
          · exact .differentialName harg hinner
          · exact .differential harg
        case isFalse hd =>
          cases h
          rw [not_or] at htrace
          exact .function (by simp [functionNames, htrace, hd])
    | _ => cases h

/-! ## What is refused -/

theorem symbolToExpr_eq_error (declared : Declarations) {name : String} {s : Span}
    {e : Located MeaningError} :
    symbolToExpr (S := S) declared name s = .error e ↔ nameOffence? name s = some e := by
  unfold symbolToExpr Expr.scalarNamed? Expr.matrixNamed? checkName nameOffence?
  by_cases hs : declared.isScalar name = true <;> by_cases hn : name ∈ reservedNames <;>
    simp [hs, hn, Except.map]

theorem differentialToExpr_eq_error {declared : Declarations} {f : Formula S}
    {e : Located MeaningError} :
    differentialToExpr declared f = .error e ↔ f.innermost.differentialOffence? = some e := by
  induction f with
  | symbol name s =>
    simp only [innermost, differentialOffence?, differentialToExpr,
      ← symbolToExpr_eq_error (S := S) declared]
    cases symbolToExpr (S := S) declared name s <;> simp [Except.map]
  | paren inner s ih => exact ih
  | _ => simp [differentialToExpr, innermost, differentialOffence?]

/-- What has an operand is refused with what the operand is refused with. -/
theorem bind_eq_error {x : Except (Located MeaningError) (Expr S)} {k : Expr S → Expr S}
    {e : Located MeaningError} : (do return k (← x)) = Except.error e ↔ x = .error e := by
  cases x <;> simp [bind, Except.bind, pure, Except.pure]

variable [Scalar S]

/-- A formula is refused with the first offence in it. -/
theorem toExpr_eq_error (declared : Declarations) {f : Formula S} {e : Located MeaningError} :
    f.toExpr declared = .error e ↔
      f.preorder.findSome? (offence? declared.distance) = some e := by
  induction f generalizing e with
  | number => simp [toExpr, preorder, offence?]
  | symbol name s => simp [toExpr, preorder, offence?, symbolToExpr_eq_error]
  | paren inner _ ih => simp only [toExpr, preorder, List.findSome?_cons, offence?, ih]
  | neg operand _ ih | transpose operand _ ih =>
    simp only [toExpr, bind_eq_error, preorder, List.findSome?_cons, offence?, ih]
  | binary op _ lhs rhs _ ihl ihr =>
    simp only [toExpr, preorder, List.findSome?_cons, offence?, List.findSome?_append]
    cases hl : toExpr declared lhs with
    | error e' => simp [ihl.1 hl, bind, Except.bind]
    | ok a =>
      -- nothing on the left offends, so what is reported is what the right operand is refused with
      have hnone : lhs.preorder.findSome? (offence? declared.distance) = none := by
        rw [Option.eq_none_iff_forall_ne_some]
        intro e' he'
        rw [ihl.2 he'] at hl
        cases hl
      rw [hnone, Option.none_or, ← ihr]
      exact bind_eq_error
  | call name nameSpan arg _ ih =>
    simp only [toExpr, preorder, List.findSome?_cons, offence?]
    split
    case isTrue => simp only [bind_eq_error, ih]
    case isFalse =>
      split
      case isTrue =>
        rw [differentialToExpr_eq_error]
        cases arg.innermost.differentialOffence? <;> simp
      case isFalse => simp

theorem exists_toExpr_iff_offence {declared : Declarations} {f : Formula S} :
    (∃ x, f.toExpr declared = .ok x) ↔
      ∀ n ∈ f.preorder, ∀ e, ¬ n.Offends declared.distance e := by
  have hnone : (∃ x, f.toExpr declared = .ok x) ↔
      f.preorder.findSome? (offence? declared.distance) = none := by
    rw [Option.eq_none_iff_forall_ne_some]
    simp only [ne_eq, ← toExpr_eq_error declared]
    cases f.toExpr declared <;> simp
  rw [hnone, List.findSome?_eq_none_iff]
  simp only [offends_iff, Option.eq_none_iff_forall_ne_some]

/-- A formula stands for no expression exactly if a node of it offends, whatever is declared a
scalar, and the first of them is reported. -/
theorem toExpr_offence (declared : Declarations) (f : Formula S) :
    (∀ e, f.toExpr declared = .error e ↔ ∃ before n after, f.preorder = before ++ n :: after ∧
      (∀ m ∈ before, ∀ e', ¬ m.Offends declared.distance e') ∧ n.Offends declared.distance e) ∧
    ((∃ x, f.toExpr declared = .ok x) ↔
      ∀ n ∈ f.preorder, ∀ e, ¬ n.Offends declared.distance e) ∧
    ∀ declared', (∃ x, f.toExpr declared' = .ok x) ↔ ∃ x, f.toExpr declared = .ok x := by
  refine ⟨fun e => ?_, exists_toExpr_iff_offence, fun declared' => ?_⟩
  · rw [toExpr_eq_error, List.findSome?_eq_some_iff]
    simp only [offends_iff, Option.eq_none_iff_forall_ne_some]
    constructor
    · rintro ⟨before, n, after, hf, hn, hbefore⟩
      exact ⟨before, n, after, hf, hbefore, hn⟩
    · rintro ⟨before, n, after, hf, hbefore, hn⟩
      exact ⟨before, n, after, hf, hn, hbefore⟩
  · have hmono : ∀ distance distance' : String → String → Nat,
        (∀ n ∈ f.preorder, ∀ e, ¬ n.Offends distance e) →
          ∀ n ∈ f.preorder, ∀ e, ¬ n.Offends distance' e :=
      fun distance distance' h n hn e he =>
        (he.exists_of_distance distance).elim fun e' he' => h n hn e' he'
    rw [exists_toExpr_iff_offence, exists_toExpr_iff_offence]
    exact ⟨hmono _ _, hmono _ _⟩

end TraceCalculus.Formula
