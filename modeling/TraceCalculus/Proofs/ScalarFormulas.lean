import TraceCalculus.Proofs.FirstDegree
import TraceCalculus.Proofs.FormulaMeaning
import TraceCalculus.Proofs.TraceFunction

/-! # Formulas of scalar functions

Which formulas stand for trace functions shows in their syntax. A scalar formula is made by sums,
differences and multiples of numbers and of traces `Tr(M)` (`Formula.Tree.ScalarFormula`), where `M`
is made by sums, differences, products, transposes and multiples of matrix variables
(`Formula.Tree.MatrixFormula`). Multiples are products with a factor, on the left or on the right,
that is itself a product of numbers and scalar variables (`Formula.Tree.Factor`).

The constructors move factors to the left and merge them, so a scalar formula stands for a
combination of scalars and traces, or for the zero element
(`Formula.Tree.ScalarFormula.combination`). This is a trace function, unless a scalar variable is
left over that is no factor, as in `s*3`, which becomes `3*s` (`Formula.toExpr_traceFunction`).
-/

set_option autoImplicit false

namespace TraceCalculus

namespace Expr

variable {S : Type} [ExactScalar S] {a b c e : Expr S} {C : Expr S → Prop}

/-! ## Multiples on either side -/

/-- A class that has the multiples of its members, and with one scalar all of them, is closed under
products with scalars. -/
theorem Product.of_factor (hscale : ∀ {k b}, C (.scale k b) ↔ k.isScalar = true ∧ C b)
    (hnull : ¬ C .null)
    (hscalar : ∀ {a b}, a.isScalar = true → C a → b.isScalar = true → C b) (h : Product a b c)
    (hab : a.isScalar = true ∧ C b ∨ b.isScalar = true ∧ C a) : C c := by
  induction h with
  | nullLeft b =>
    rcases hab with ⟨ha, -⟩ | ⟨-, ha⟩
    · cases ha
    · exact absurd ha hnull
  | nullRight a =>
    rcases hab with ⟨-, hb⟩ | ⟨hb, -⟩
    · exact absurd hb hnull
    · cases hb
  | fold x y =>
    rcases hab with ⟨-, h⟩ | ⟨-, h⟩ <;> exact hscalar rfl h rfl
  | oneLeft =>
    rcases hab with ⟨-, hb⟩ | ⟨hb, ha⟩
    · exact hb
    · exact hscalar rfl ha hb
  | oneRight =>
    rcases hab with ⟨ha, hb⟩ | ⟨-, ha⟩
    · exact hscalar rfl hb ha
    · exact ha
  | swap _ _ _ _ ih => exact ih hab.symm
  | @mergeLeft a s r _ _ _ ha ht _ _ ihc =>
    have hb : C (.scale s r) := hab.elim And.right fun h => hscalar ha h.2 h.1
    obtain ⟨hs, hr⟩ := hscale.1 hb
    exact ihc (.inl ⟨ht.isScalar ha hs, hr⟩)
  | scaleLeft _ ha _ =>
    rw [asOperand_exact]
    exact hscale.2 ⟨ha, hab.elim And.right fun h => hscalar ha h.2 h.1⟩
  | mergeRight _ ha hb ht _ _ ihc =>
    rcases hab with ⟨hs, -⟩ | ⟨-, hsl⟩
    · rw [ha] at hs
      cases hs
    · obtain ⟨hs, hl⟩ := hscale.1 hsl
      exact ihc (.inl ⟨ht.isScalar hs hb, hl⟩)
  | scaleRight _ ha hb =>
    rcases hab with ⟨hs, -⟩ | ⟨-, h⟩
    · rw [ha] at hs
      cases hs
    · exact hscale.2 ⟨hb, h⟩
  | mergeBoth _ ha hb | hoistLeft _ ha hb | hoistRight _ ha hb | matMul _ ha hb =>
    rcases hab with ⟨hs, -⟩ | ⟨hs, -⟩
    · rw [ha] at hs
      cases hs
    · rw [hb] at hs
      cases hs

/-- The multiples of a matrix. -/
theorem Product.plain_of_factor (h : Product a b c)
    (hab : a.isScalar = true ∧ b.Plain ∨ b.isScalar = true ∧ a.Plain) : c.Plain := by
  refine h.of_factor Iff.rfl id (fun hs hp _ => ?_) hab
  rw [homogeneous_plain.isScalar_eq hp] at hs
  cases hs

/-! ## Combinations of scalars and traces -/

omit [ExactScalar S] in
theorem OrNull.resolve (h : OrNull C a) (ha : a.isNull = false) : C a :=
  h.resolve_left (by rintro rfl; cases ha)

/-- Sums, differences and scalar multiples of scalars and traces of matrices. -/
def Combination : Expr S → Prop
  | .literal _ | .scalarVar _ => True
  | .add a b | .sub a b => a.Combination ∧ b.Combination
  | .scale k b => k.isScalar = true ∧ b.Combination
  | .trace a => a.Plain
  | _ => False

omit [ExactScalar S] in
theorem combination_of_isScalar (h : e.isScalar = true) : e.Combination := by
  induction e with
  | scalarVar | literal => trivial
  | scale k b _ ihb =>
    simp only [isScalar, Bool.and_eq_true] at h
    exact ⟨h.1, ihb h.2⟩
  | _ => cases h

omit [ExactScalar S] in
/-- Without scalar variables other than in factors it is a trace function. -/
theorem Combination.traceFunction (h : e.Combination) (hs : e.Undifferentiated) :
    e.TraceFunction := by
  induction e with
  | literal => trivial
  | scalarVar => cases hs
  | add a b iha ihb | sub a b iha ihb => exact ⟨iha h.1 hs.1, ihb h.2 hs.2⟩
  | scale k b _ ihb => exact ⟨h.1, ihb h.2 hs.2⟩
  | trace => exact h
  | _ => cases h

theorem Product.combination (h : Product a b c)
    (hab : a.isScalar = true ∧ b.Combination ∨ b.isScalar = true ∧ a.Combination) :
    c.Combination :=
  h.of_factor Iff.rfl id (fun _ _ hb => combination_of_isScalar hb) hab

theorem Plus.combination (h : Plus a b c) (ha : OrNull Combination a)
    (hb : OrNull Combination b) : OrNull Combination c := by
  cases h with
  | nullLeft => exact hb
  | nullRight => exact ha
  | fold => exact .inr trivial
  | double hn _ hc => exact .inr (hc.combination (.inl ⟨rfl, ha.resolve hn⟩))
  | add h =>
    rw [asOperand_exact, asOperand_exact]
    exact .inr ⟨ha.resolve h.left, hb.resolve h.right⟩

theorem Minus.combination (h : Minus a b c) (ha : OrNull Combination a)
    (hb : OrNull Combination b) : OrNull Combination c := by
  cases h with
  | nullRight => exact ha
  | nullLeft hn hc => exact .inr (hc.combination (.inl ⟨rfl, hb.resolve hn⟩))
  | cancel => exact .inl rfl
  | fold => exact .inr trivial
  | sub h =>
    rw [asOperand_exact, asOperand_exact]
    exact .inr ⟨ha.resolve h.left, hb.resolve h.right⟩

omit [ExactScalar S] in
theorem combination_traced (h : OrNull Plain a) : OrNull Combination a.traced := by
  rcases h with rfl | h
  · exact .inl rfl
  · rw [traced_eq_trace (homogeneous_plain.isNull_eq h) (homogeneous_plain.isScalar_eq h)]
    exact .inr h

/-- What the multiples of a class are up to the zero element. -/
theorem orNull_times (hC : ∀ {a b c}, Product a b c →
      a.isScalar = true ∧ C b ∨ b.isScalar = true ∧ C a → C c)
    (ha : a.isScalar = true) (hb : OrNull C b) : OrNull C (a * b) ∧ OrNull C (b * a) := by
  rcases hb with rfl | hb
  · rw [times_null, null_times]
    exact ⟨.inl rfl, .inl rfl⟩
  · exact ⟨.inr (hC (product_times a b) (.inl ⟨ha, hb⟩)),
      .inr (hC (product_times b a) (.inr ⟨ha, hb⟩))⟩

end Expr

namespace Formula

variable {S : Type} {declared : Declarations}

/-! ## The syntax -/

/-- A product of numbers and scalar variables. -/
inductive Tree.Factor (declared : Declarations) : Tree S → Prop
  | number (x : S) : Factor declared (.number x)
  | symbol {name : String} (h : declared.isScalar name = true) : Factor declared (.symbol name)
  | paren {t : Tree S} (h : Factor declared t) : Factor declared (.paren t)
  | neg {t : Tree S} (h : Factor declared t) : Factor declared (.neg t)
  | times {s t : Tree S} (hs : Factor declared s) (ht : Factor declared t) :
    Factor declared (.binary .times s t)

/-- A matrix that is made of matrix variables. -/
inductive Tree.MatrixFormula (declared : Declarations) : Tree S → Prop
  | symbol {name : String} (h : declared.isScalar name = false) :
    MatrixFormula declared (.symbol name)
  | paren {t : Tree S} (h : MatrixFormula declared t) : MatrixFormula declared (.paren t)
  | neg {t : Tree S} (h : MatrixFormula declared t) : MatrixFormula declared (.neg t)
  | transpose {t : Tree S} (h : MatrixFormula declared t) : MatrixFormula declared (.transpose t)
  | binary (op : Operator) {s t : Tree S} (hs : MatrixFormula declared s)
      (ht : MatrixFormula declared t) : MatrixFormula declared (.binary op s t)
  | factorLeft {s t : Tree S} (hs : s.Factor declared) (ht : MatrixFormula declared t) :
    MatrixFormula declared (.binary .times s t)
  | factorRight {s t : Tree S} (hs : MatrixFormula declared s) (ht : t.Factor declared) :
    MatrixFormula declared (.binary .times s t)

/-- A number that is made of numbers and of traces of matrices. -/
inductive Tree.ScalarFormula (declared : Declarations) : Tree S → Prop
  | number (x : S) : ScalarFormula declared (.number x)
  | trace {name : String} {t : Tree S} (hf : name = "Tr" ∨ name = "tr")
      (h : t.MatrixFormula declared) : ScalarFormula declared (.call name t)
  | paren {t : Tree S} (h : ScalarFormula declared t) : ScalarFormula declared (.paren t)
  | neg {t : Tree S} (h : ScalarFormula declared t) : ScalarFormula declared (.neg t)
  | plus {s t : Tree S} (hs : ScalarFormula declared s) (ht : ScalarFormula declared t) :
    ScalarFormula declared (.binary .plus s t)
  | minus {s t : Tree S} (hs : ScalarFormula declared s) (ht : ScalarFormula declared t) :
    ScalarFormula declared (.binary .minus s t)
  | factorLeft {s t : Tree S} (hs : s.Factor declared) (ht : ScalarFormula declared t) :
    ScalarFormula declared (.binary .times s t)
  | factorRight {s t : Tree S} (hs : ScalarFormula declared s) (ht : t.Factor declared) :
    ScalarFormula declared (.binary .times s t)

/-! ## What they stand for -/

section Meaning

variable [ExactScalar S] {t : Tree S} {e : Expr S}

theorem Tree.Factor.isScalar (ht : t.Factor declared) (h : t.Denotes declared e) :
    e.isScalar = true := by
  induction ht generalizing e with
  | number =>
    cases h
    rfl
  | symbol hs =>
    cases h
    rw [named, if_pos hs]
    rfl
  | paren _ ih => cases h with | paren h => exact ih h
  | neg _ ih => cases h with | neg h => exact Expr.isScalar_times rfl (ih h)
  | times _ _ ihs iht => cases h with | binary _ ha hb => exact Expr.isScalar_times (ihs ha) (iht hb)

theorem Tree.MatrixFormula.plain (ht : t.MatrixFormula declared) (h : t.Denotes declared e) :
    Expr.OrNull Expr.Plain e := by
  induction ht generalizing e with
  | symbol hs =>
    cases h
    rw [named, if_neg (by simp [hs])]
    exact .inr trivial
  | paren _ ih => cases h with | paren h => exact ih h
  | neg _ ih =>
    cases h with | neg h => exact (Expr.orNull_times Expr.Product.plain_of_factor rfl (ih h)).1
  | transpose _ ih => cases h with | transpose h => exact Expr.plain_transposed (ih h)
  | binary op _ _ ihs iht =>
    cases h with
    | binary _ ha hb =>
      cases op with
      | plus => exact Expr.plain_plus (ihs ha) (iht hb)
      | minus => exact Expr.plain_minus (ihs ha) (iht hb)
      | times => exact Expr.plain_times (ihs ha) (iht hb)
  | factorLeft hs _ iht =>
    cases h with
    | binary _ ha hb =>
      exact (Expr.orNull_times Expr.Product.plain_of_factor (hs.isScalar ha) (iht hb)).1
  | factorRight _ ht ihs =>
    cases h with
    | binary _ ha hb =>
      exact (Expr.orNull_times Expr.Product.plain_of_factor (ht.isScalar hb) (ihs ha)).2

theorem Tree.ScalarFormula.combination (ht : t.ScalarFormula declared) (h : t.Denotes declared e) :
    Expr.OrNull Expr.Combination e := by
  induction ht generalizing e with
  | number =>
    cases h
    exact .inr trivial
  | trace hf hm =>
    cases h with
    | trace _ h => exact Expr.combination_traced (hm.plain h)
    | differential => exact absurd hf (by decide)
  | paren _ ih => cases h with | paren h => exact ih h
  | neg _ ih =>
    cases h with | neg h => exact (Expr.orNull_times Expr.Product.combination rfl (ih h)).1
  | plus _ _ ihs iht =>
    cases h with | binary _ ha hb => exact (Expr.plus_add _ _).combination (ihs ha) (iht hb)
  | minus _ _ ihs iht =>
    cases h with | binary _ ha hb => exact (Expr.minus_sub _ _).combination (ihs ha) (iht hb)
  | factorLeft hs _ iht =>
    cases h with
    | binary _ ha hb =>
      exact (Expr.orNull_times Expr.Product.combination (hs.isScalar ha) (iht hb)).1
  | factorRight _ ht ihs =>
    cases h with
    | binary _ ha hb =>
      exact (Expr.orNull_times Expr.Product.combination (ht.isScalar hb) (ihs ha)).2

/-- A scalar formula stands for the zero element or for a combination of scalars and traces. If scalar
variables occur in factors only, it stands for a trace function. -/
theorem toExpr_traceFunction {f : Formula S} (hf : f.tree.ScalarFormula declared)
    (h : f.toExpr declared = .ok e) :
    Expr.OrNull Expr.Combination e ∧ (e.Undifferentiated → Expr.OrNull Expr.TraceFunction e) := by
  have he := hf.combination (toExpr_eq_ok.1 h)
  exact ⟨he, fun hs => he.imp fun hc => hc.traceFunction hs⟩

end Meaning

end Formula

end TraceCalculus
