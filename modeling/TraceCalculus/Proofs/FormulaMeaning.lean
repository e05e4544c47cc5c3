import TraceCalculus.Proofs.Instances
import TraceCalculus.Formula.Grammar
import TraceCalculus.Formula.Meaning

/-! # The expression a formula stands for

Which expression it is, `Formula.Tree.Denotes` says node by node (`Formula.toExpr_eq_ok`). A formula
stands for an expression if it is sensible (`Formula.Tree.Sensible`): its variables have no reserved
names, the functions it calls exist, and its differentials are taken of variables
(`Formula.exists_toExpr_iff`).

It also has a value by itself (`Formula.Tree.Means`), node by node and with nothing simplified on the
way. The expression stands for that value (`Formula.stands_toExpr`), if what was declared a scalar
has a number for its value.
-/

set_option autoImplicit false

namespace TraceCalculus

namespace Formula

variable {S : Type}

/-- The name a formula is, in brackets or not. -/
def Tree.symbol? : Tree S → Option String
  | .symbol name => some name
  | .paren t => t.symbol?
  | _ => none

/-- The formula stands for an expression. -/
def Tree.Sensible : Tree S → Prop
  | .number _ => True
  | .symbol name => name ∉ reservedNames
  | .paren t | .neg t | .transpose t => t.Sensible
  | .binary _ a b => a.Sensible ∧ b.Sensible
  | .call name t =>
    (name = "Tr" ∨ name = "tr") ∧ t.Sensible ∨
      name = "d" ∧ ∃ inner, t.symbol? = some inner ∧ inner ∉ reservedNames

/-- `v` is the value of a formula. No sum or difference joins a scalar with a matrix. -/
inductive Tree.Means [ExactScalar S] (env : Environment S) : Tree S → Value S → Prop
  | number (x : S) : Means env (.number x) (.scalar x)
  | symbol {name : String} {v : Value S} (h : env.get? name = some v) : Means env (.symbol name) v
  | paren {t : Tree S} {v : Value S} (h : Means env t v) : Means env (.paren t) v
  | neg {t : Tree S} {v : Value S} (h : Means env t v) : Means env (.neg t) (v.scaleBy (-1))
  | transpose {t : Tree S} {v : Value S} (h : Means env t v) : Means env (.transpose t) v.transpose
  | plus {a b : Tree S} {u v w : Value S} (ha : Means env a u) (hb : Means env b v)
      (h : Value.Sum u v w) : Means env (.binary .plus a b) w
  | minus {a b : Tree S} {u v w : Value S} (ha : Means env a u) (hb : Means env b v)
      (h : Value.Difference u v w) : Means env (.binary .minus a b) w
  | times {a b : Tree S} {u v w : Value S} (ha : Means env a u) (hb : Means env b v)
      (h : u.mul v = .ok w) : Means env (.binary .times a b) w
  | trace {name : String} {t : Tree S} {v w : Value S} (hn : name = "Tr" ∨ name = "tr")
      (ht : Means env t v) (h : v.trace = .ok w) : Means env (.call name t) w
  | differential {t : Tree S} {name : String} {v : Value S} (hn : t.symbol? = some name)
      (h : env.get? ("d(" ++ name ++ ")") = some v) : Means env (.call "d" t) v

/-! ## Sensible formulas -/

/-- The variable a name stands for. -/
def named (declared : Declarations) (name : String) : Expr S :=
  if declared.isScalar name then .scalarVar name else .var name

theorem name?_named (declared : Declarations) (name : String) :
    (named declared name : Expr S).name? = some name := by
  unfold named
  split <;> rfl

variable {declared : Declarations} {e : Expr S} {f : Formula S}

theorem symbolToExpr_eq_ok {name : String} {span : Span} :
    symbolToExpr declared name span = .ok e ↔ name ∉ reservedNames ∧ e = named declared name := by
  unfold symbolToExpr Expr.scalarNamed? Expr.matrixNamed? checkName named
  by_cases hs : declared.isScalar name = true <;> by_cases hn : name ∈ reservedNames <;>
    simp [hs, hn, Except.map, eq_comm]

theorem differentialToExpr_eq_ok : differentialToExpr declared f = .ok e ↔
    ∃ name, f.tree.symbol? = some name ∧ name ∉ reservedNames ∧
      e = .differential (named declared name) := by
  induction f with
  | symbol name span =>
    have hmap : differentialToExpr declared (.symbol name span) = .ok e ↔
        ∃ a : Expr S, symbolToExpr declared name span = .ok a ∧ e = .differential a := by
      unfold differentialToExpr
      cases (symbolToExpr declared name span : Except (Located MeaningError) (Expr S)) <;>
        simp [Except.map, eq_comm]
    simp [hmap, symbolToExpr_eq_ok, tree, Tree.symbol?, and_assoc]
  | paren inner span ih => exact ih
  | _ => simp [differentialToExpr, tree, Tree.symbol?]

theorem map_eq_ok {x : Except (Located MeaningError) (Expr S)} {g : Expr S → Expr S} :
    (do return g (← x) : Except (Located MeaningError) (Expr S)) = .ok e ↔
      ∃ a, x = .ok a ∧ g a = e := by
  cases x <;> simp [bind, Except.bind, pure, Except.pure]

section Denotes

variable [Scalar S]

/-- `e` is the expression that a formula stands for. -/
inductive Tree.Denotes (declared : Declarations) : Tree S → Expr S → Prop
  | number (x : S) : Denotes declared (.number x) (.literal x)
  | symbol {name : String} (hn : name ∉ reservedNames) :
    Denotes declared (.symbol name) (named declared name)
  | paren {t : Tree S} {e : Expr S} (h : Denotes declared t e) : Denotes declared (.paren t) e
  | neg {t : Tree S} {e : Expr S} (h : Denotes declared t e) : Denotes declared (.neg t) (-e)
  | transpose {t : Tree S} {e : Expr S} (h : Denotes declared t e) :
    Denotes declared (.transpose t) e.transposed
  | binary (op : Operator) {s t : Tree S} {a b : Expr S} (ha : Denotes declared s a)
      (hb : Denotes declared t b) : Denotes declared (.binary op s t) (a.joined op b)
  | trace {name : String} {t : Tree S} {e : Expr S} (hf : name = "Tr" ∨ name = "tr")
      (h : Denotes declared t e) : Denotes declared (.call name t) e.traced
  | differential {t : Tree S} {name : String} (ht : t.symbol? = some name)
      (hn : name ∉ reservedNames) :
    Denotes declared (.call "d" t) (.differential (named declared name))

/-- All that is known of a formula that stands for an expression: what follows argues by induction
on it and does not open `toExpr` again. -/
theorem toExpr_eq_ok : f.toExpr declared = .ok e ↔ f.tree.Denotes declared e := by
  constructor
  · intro h
    induction f generalizing e with
    | number x span =>
      cases h
      exact .number x
    | symbol name span =>
      obtain ⟨hn, rfl⟩ := symbolToExpr_eq_ok.1 h
      exact .symbol hn
    | paren inner span ih => exact .paren (ih h)
    | neg operand span ih =>
      obtain ⟨a, ha, rfl⟩ := map_eq_ok.1 h
      exact .neg (ih ha)
    | transpose operand span ih =>
      obtain ⟨a, ha, rfl⟩ := map_eq_ok.1 h
      exact .transpose (ih ha)
    | binary op opSpan lhs rhs span ihl ihr =>
      obtain ⟨a, ha, h⟩ := Expr.bind_eq_ok h
      obtain ⟨b, hb, rfl⟩ := map_eq_ok.1 h
      exact .binary op (ihl ha) (ihr hb)
    | call name nameSpan arg span ih =>
      unfold toExpr at h
      split at h
      case isTrue hf =>
        obtain ⟨a, ha, rfl⟩ := map_eq_ok.1 h
        exact .trace hf (ih ha)
      case isFalse =>
        split at h
        case isTrue hd =>
          obtain ⟨inner, ht, hn, rfl⟩ := differentialToExpr_eq_ok.1 h
          exact hd ▸ .differential ht hn
        case isFalse => cases h
  · intro h
    induction f generalizing e with
    | number x span =>
      cases h
      rfl
    | symbol name span =>
      cases h with | symbol hn => exact symbolToExpr_eq_ok.2 ⟨hn, rfl⟩
    | paren inner span ih =>
      cases h with | paren h => exact ih h
    | neg operand span ih =>
      cases h with | neg h => exact map_eq_ok.2 ⟨_, ih h, rfl⟩
    | transpose operand span ih =>
      cases h with | transpose h => exact map_eq_ok.2 ⟨_, ih h, rfl⟩
    | binary op opSpan lhs rhs span ihl ihr =>
      cases h with
      | binary _ ha hb =>
        rw [toExpr, ihl ha, ihr hb]
        rfl
    | call name nameSpan arg span ih =>
      unfold toExpr
      cases h with
      | trace hf h => exact (if_pos hf).trans (map_eq_ok.2 ⟨_, ih h, rfl⟩)
      | differential ht hn =>
        rw [if_neg (by decide), if_pos rfl]
        exact differentialToExpr_eq_ok.2 ⟨_, ht, hn, rfl⟩

theorem Tree.Denotes.sensible {t : Tree S} (h : t.Denotes declared e) : t.Sensible := by
  induction h with
  | number => trivial
  | symbol hn => exact hn
  | paren _ ih | neg _ ih | transpose _ ih => exact ih
  | binary _ _ _ iha ihb => exact ⟨iha, ihb⟩
  | trace hf _ ih => exact .inl ⟨hf, ih⟩
  | differential ht hn => exact .inr ⟨rfl, _, ht, hn⟩

theorem Tree.Sensible.denotes {t : Tree S} (h : t.Sensible) : ∃ e, t.Denotes declared e := by
  induction t with
  | number x => exact ⟨_, .number x⟩
  | symbol name => exact ⟨_, .symbol h⟩
  | paren t ih => exact (ih h).imp fun _ => .paren
  | neg t ih =>
    obtain ⟨a, ha⟩ := ih h
    exact ⟨_, .neg ha⟩
  | transpose t ih =>
    obtain ⟨a, ha⟩ := ih h
    exact ⟨_, .transpose ha⟩
  | binary op s t ihs iht =>
    obtain ⟨a, ha⟩ := ihs h.1
    obtain ⟨b, hb⟩ := iht h.2
    exact ⟨_, .binary op ha hb⟩
  | call name t ih =>
    obtain ⟨hf, ht⟩ | ⟨rfl, inner, ht, hn⟩ := h
    · obtain ⟨a, ha⟩ := ih ht
      exact ⟨_, .trace hf ha⟩
    · exact ⟨_, .differential ht hn⟩

/-- The sensible formulas are those that stand for an expression. -/
theorem exists_toExpr_iff : (∃ e, f.toExpr declared = .ok e) ↔ f.tree.Sensible := by
  simp only [toExpr_eq_ok]
  exact ⟨fun ⟨_, h⟩ => h.sensible, Tree.Sensible.denotes⟩

end Denotes

/-! ## Values -/

section Values

variable [ExactScalar S] {env : Environment S} {v : Value S}

open TraceCalculus.Expr (Means Stands)

theorem stands_named {name : String}
    (hscalar : declared.isScalar name = true → v.isMatrix = false) (hv : env.get? name = some v) :
    Stands (Reading.ofEnv env) (named declared name) v := by
  unfold named
  split
  case isTrue hs =>
    cases v with
    | scalar x => exact (Means.scalarVar hv).stands
    | matrix m => cases hscalar hs
  case isFalse => exact (Means.var hv).stands

theorem Tree.Denotes.stands {t : Tree S}
    (hscalar : ∀ name, declared.isScalar name = true →
      ∀ u, env.get? name = some u → u.isMatrix = false)
    (h : t.Denotes declared e) (hv : t.Means env v) : Stands (Reading.ofEnv env) e v := by
  induction h generalizing v with
  | number x =>
    cases hv
    exact (Means.literal x).stands
  | @symbol name _ =>
    cases hv with | symbol hv => exact stands_named (fun hs => hscalar name hs v hv) hv
  | paren _ ih =>
    cases hv with | paren hv => exact ih hv
  | neg _ ih =>
    cases hv with | neg hv => exact (ih hv).negated
  | transpose _ ih =>
    cases hv with | transpose hv => exact (ih hv).transposed
  | binary _ _ _ iha ihb =>
    cases hv with
    | plus ha hb hw => exact (iha ha).plus (ihb hb) hw
    | minus ha hb hw => exact (iha ha).minus (ihb hb) hw
    | times ha hb hw => exact (iha ha).times (ihb hb) hw False.elim
  | trace hf _ ih =>
    cases hv with
    | trace _ hv hw => exact (ih hv).traced hw
    | differential => exact absurd hf (by decide)
  | @differential _ name ht _ =>
    cases hv with
    | trace hf => exact absurd hf (by decide)
    | differential ht' hv =>
      obtain rfl := Option.some.inj (ht'.symm.trans ht)
      exact Means.stands (.differential (name?_named declared _) hv)

/-- The expression stands for the value of the formula. -/
theorem stands_toExpr
    (hscalar : ∀ name, declared.isScalar name = true →
      ∀ u, env.get? name = some u → u.isMatrix = false)
    (h : f.toExpr declared = .ok e) (hv : f.tree.Means env v) :
    Stands (Reading.ofEnv env) e v :=
  (toExpr_eq_ok.1 h).stands hscalar hv

end Values

end Formula

/-- What is read from a source text is what its formula stands for. -/
theorem Expr.read_eq_ok {S : Type} [Scalar S] {declared : Declarations} {source : String}
    {e : Expr S} : Expr.read declared source = .ok e ↔
      ∃ f : Formula S, Formula.parse source = .ok f ∧ f.toExpr declared = .ok e := by
  unfold Expr.read
  cases (Formula.parse source : Except _ (Formula S)) with
  | error => simp
  | ok f => cases hf : f.toExpr declared <;> simp [hf]

end TraceCalculus
