import TraceCalculus.Proofs.FormulaMeaning
import TraceCalculus.Proofs.Parsing
import TraceCalculus.Proofs.Phrases
import TraceCalculus.Proofs.Relabelling

/-! # The literals of what is read

The literals that the constructors make are calculated from those of the operands, and minus one and
two. So what holds of the numerals of a source text, and of what is calculated from such numbers
(`Calculated`), holds of every literal of the expression that is read from it
(`Expr.literals_of_read`).

A source text is read alike over other numbers, too: where `φ` takes numerals to numerals and keeps
calculations, it takes one expression to the other (`Expr.exists_read_relabel`).
-/

set_option autoImplicit false

namespace TraceCalculus

/-- What holds of numbers holds of everything that is calculated from them. -/
structure Calculated {S : Type} [Scalar S] (P : S → Prop) : Prop where
  one : P 1
  neg {x : S} : P x → P (-x)
  add {x y : S} : P x → P y → P (x + y)
  sub {x y : S} : P x → P y → P (x - y)
  mul {x y : S} : P x → P y → P (x * y)
  anew {x : S} : P x → P (Scalar.anew x)

namespace Expr

variable {S : Type} {P : S → Prop} {a b c e : Expr S}

theorem literals_literal {x : S} : (literal x).Literals P ↔ P x := by simp [Literals, postOrder]

theorem literals_scale : (scale a b).Literals P ↔ a.Literals P ∧ b.Literals P := by
  simp [Literals, postOrder, or_imp, forall_and]

theorem literals_matMul : (matMul a b).Literals P ↔ a.Literals P ∧ b.Literals P := by
  simp [Literals, postOrder, or_imp, forall_and]

theorem literals_add : (add a b).Literals P ↔ a.Literals P ∧ b.Literals P := by
  simp [Literals, postOrder, or_imp, forall_and]

theorem literals_sub : (sub a b).Literals P ↔ a.Literals P ∧ b.Literals P := by
  simp [Literals, postOrder, or_imp, forall_and]

theorem literals_differential : (differential a).Literals P ↔ a.Literals P := by
  simp [Literals, postOrder]

theorem literals_null : (null : Expr S).Literals P := by simp [Literals, postOrder]

theorem Literals.transposed (h : e.Literals P) : e.transposed.Literals P := by
  have ht := transposition_transposed e
  generalize e.transposed = c at ht
  cases ht with
  | null => exact h
  | turnBack => exact h.of_mem_children (.head _)
  | trace | scalar => exact h
  | transpose => simpa [Literals, postOrder] using h

theorem Literals.traced (h : e.Literals P) : e.traced.Literals P := by
  have ht := tracing_traced e
  generalize e.traced = c at ht
  cases ht with
  | null | scalar => exact h
  | trace => simpa [Literals, postOrder] using h

variable [Scalar S] (hP : Calculated P)
include hP

theorem Literals.asOperand (h : e.Literals P) : e.asOperand.Literals P := by
  cases e with
  | literal x => exact literals_literal.2 (hP.anew (literals_literal.1 h))
  | _ => exact h

theorem Product.literals (h : Product a b c) (ha : a.Literals P) (hb : b.Literals P) :
    c.Literals P := by
  induction h with
  | nullLeft | nullRight => exact literals_null
  | fold => exact literals_literal.2 (hP.mul (literals_literal.1 ha) (literals_literal.1 hb))
  | oneLeft => exact hb
  | oneRight => exact ha
  | swap _ _ _ _ ih => exact ih hb ha
  | mergeLeft _ _ _ _ iht ihc =>
    rw [literals_scale] at hb
    exact ihc (iht ha hb.1) hb.2
  | scaleLeft => exact literals_scale.2 ⟨ha.asOperand hP, hb⟩
  | mergeRight _ _ _ _ _ iht ihc =>
    rw [literals_scale] at ha
    exact ihc (iht ha.1 hb) ha.2
  | scaleRight => exact literals_scale.2 ⟨hb, ha⟩
  | mergeBoth _ _ _ _ _ _ iht ihm ihc =>
    rw [literals_scale] at ha hb
    exact ihc (iht ha.1 hb.1) (ihm ha.2 hb.2)
  | hoistLeft _ _ _ _ _ _ ihm ihc =>
    rw [literals_scale] at ha
    exact ihc ha.1 (ihm ha.2 hb)
  | hoistRight _ _ _ _ _ _ ihm ihc =>
    rw [literals_scale] at hb
    exact ihc hb.1 (ihm ha hb.2)
  | matMul => exact literals_matMul.2 ⟨ha, hb⟩

theorem Literals.times (ha : a.Literals P) (hb : b.Literals P) : (a * b).Literals P :=
  (product_times a b).literals hP ha hb

theorem Literals.negated (ha : a.Literals P) : (-a).Literals P :=
  Literals.times hP (literals_literal.2 (hP.neg hP.one)) ha

theorem Literals.plus (ha : a.Literals P) (hb : b.Literals P) : (a + b).Literals P := by
  have hplus := plus_add a b
  generalize a + b = c at hplus
  cases hplus with
  | nullLeft => exact hb
  | nullRight => exact ha
  | fold => exact literals_literal.2 (hP.add (literals_literal.1 ha) (literals_literal.1 hb))
  | double _ _ hc => exact hc.literals hP (literals_literal.2 (hP.add hP.one hP.one)) ha
  | add => exact literals_add.2 ⟨ha.asOperand hP, hb.asOperand hP⟩

theorem Literals.minus (ha : a.Literals P) (hb : b.Literals P) : (a - b).Literals P := by
  have hminus := minus_sub a b
  generalize a - b = c at hminus
  cases hminus with
  | nullRight => exact ha
  | nullLeft _ hc => exact hc.literals hP (literals_literal.2 (hP.neg hP.one)) hb
  | cancel => exact literals_null
  | fold => exact literals_literal.2 (hP.sub (literals_literal.1 ha) (literals_literal.1 hb))
  | sub => exact literals_sub.2 ⟨ha.asOperand hP, hb.asOperand hP⟩

end Expr

namespace Formula

variable {S T : Type}

/-- The numbers of a formula satisfy `P`. -/
def Tree.Numbers (P : S → Prop) : Tree S → Prop
  | .number x => P x
  | .symbol _ => True
  | .paren t | .neg t | .transpose t | .call _ t => t.Numbers P
  | .binary _ a b => a.Numbers P ∧ b.Numbers P

/-- The formula with other numbers. -/
def Tree.map (φ : S → T) : Tree S → Tree T
  | .number x => .number (φ x)
  | .symbol name => .symbol name
  | .paren t => .paren (t.map φ)
  | .neg t => .neg (t.map φ)
  | .transpose t => .transpose (t.map φ)
  | .binary op a b => .binary op (a.map φ) (b.map φ)
  | .call name t => .call name (t.map φ)

theorem Tree.map_map {φ : S → T} {ψ : T → S} (h : ∀ x, φ (ψ x) = x) (t : Tree T) :
    (t.map ψ).map φ = t := by
  induction t with
  | number x => rw [Tree.map, Tree.map, h]
  | symbol => rfl
  | paren t ih | neg t ih | transpose t ih | call name t ih => rw [Tree.map, Tree.map, ih]
  | binary op a b iha ihb => rw [Tree.map, Tree.map, iha, ihb]

theorem Tree.symbol?_map (φ : S → T) (t : Tree S) : (t.map φ).symbol? = t.symbol? := by
  induction t with
  | paren t ih => exact ih
  | _ => rfl

theorem Tree.sensible_map (φ : S → T) (t : Tree S) : (t.map φ).Sensible ↔ t.Sensible := by
  induction t with
  | number | symbol => exact Iff.rfl
  | paren t ih | neg t ih | transpose t ih => exact ih
  | binary op a b iha ihb => exact and_congr iha ihb
  | call name t ih => simp only [Tree.map, Tree.Sensible, ih, Tree.symbol?_map]

variable [Scalar S] [Scalar T] {declared : Declarations}

/-- The numbers of a formula that is read are those of numerals. -/
theorem Derives.numbers {P : S → Prop} (hP : ∀ n, P (Scalar.ofNumeral n)) {l : Level}
    {ws : List Word} {t : Tree S} (h : Derives l ws t) : t.Numbers P := by
  induction h with
  | plus _ _ _ iha ihb | minus _ _ _ iha ihb | times _ _ _ iha ihb => exact ⟨iha, ihb⟩
  | number => exact hP _
  | symbol => trivial
  | ofProduct _ ih | ofSigned _ ih | ofOperand _ ih | ofAtom _ ih => exact ih
  | neg _ _ ih | quote _ _ ih | dot _ _ ih | call _ _ _ _ ih | paren _ _ _ ih => exact ih

/-- The grammar does not see the numbers. -/
theorem Derives.map {φ : S → T} (hφ : ∀ n, φ (Scalar.ofNumeral n) = Scalar.ofNumeral n) {l : Level}
    {ws : List Word} {t : Tree S} (h : Derives l ws t) : Derives l ws (t.map φ) := by
  induction h with
  | ofProduct _ ih => exact .ofProduct ih
  | plus sign _ _ iha ihb => exact .plus sign iha ihb
  | minus sign _ _ iha ihb => exact .minus sign iha ihb
  | ofSigned _ ih => exact .ofSigned ih
  | times sign _ _ iha ihb => exact .times sign iha ihb
  | ofOperand _ ih => exact .ofOperand ih
  | neg sign _ ih => exact .neg sign ih
  | ofAtom _ ih => exact .ofAtom ih
  | quote mark _ ih => exact .quote mark ih
  | dot mark _ ih => exact .dot mark ih
  | number numeral =>
    rw [Tree.map, hφ]
    exact .number numeral
  | symbol name => exact .symbol name
  | call name opening closing _ ih => exact .call name opening closing ih
  | paren opening closing _ ih => exact .paren opening closing ih

omit [Scalar S] in
theorem literals_named {P : S → Prop} (name : String) :
    (named declared name : Expr S).Literals P := by
  unfold named
  split <;> simp [Expr.Literals, Expr.postOrder]

theorem Tree.Denotes.literals {P : S → Prop} (hP : Calculated P) {t : Tree S} {e : Expr S}
    (h : t.Denotes declared e) (hn : t.Numbers P) : e.Literals P := by
  induction h with
  | number => exact Expr.literals_literal.2 hn
  | symbol => exact literals_named _
  | paren _ ih => exact ih hn
  | neg _ ih => exact (ih hn).negated hP
  | transpose _ ih => exact (ih hn).transposed
  | binary op _ _ iha ihb =>
    cases op with
    | plus => exact (iha hn.1).plus hP (ihb hn.2)
    | minus => exact (iha hn.1).minus hP (ihb hn.2)
    | times => exact (iha hn.1).times hP (ihb hn.2)
  | trace _ _ ih => exact (ih hn).traced
  | differential => exact Expr.literals_differential.2 (literals_named _)

theorem literals_toExpr {P : S → Prop} (hP : Calculated P) {f : Formula S} {e : Expr S}
    (hn : f.tree.Numbers P) (h : f.toExpr declared = .ok e) : e.Literals P :=
  (toExpr_eq_ok.1 h).literals hP hn

/-! ## Other numbers -/

section Relabelled

variable {φ : S → T} (hφ : Relabelling id φ)

omit [Scalar S] [Scalar T] in
theorem relabel_named (φ : S → T) (declared : Declarations) (name : String) :
    (named declared name).relabel id φ = named declared name := by
  unfold named
  split <;> rfl

include hφ

theorem relabel_negated (a : Expr S) : (-a).relabel id φ = -(a.relabel id φ) := by
  change (Expr.literal (-1) * a).relabel id φ = .literal (-1) * a.relabel id φ
  rw [Expr.relabel_times hφ, Expr.relabel, hφ.neg, hφ.one]

theorem relabel_joined (op : Operator) (a b : Expr S) :
    (a.joined op b).relabel id φ = (a.relabel id φ).joined op (b.relabel id φ) := by
  cases op with
  | plus => exact Expr.relabel_plus hφ a b
  | minus => exact Expr.relabel_minus hφ a b
  | times => exact Expr.relabel_times hφ a b

theorem Tree.Denotes.relabel {t : Tree S} {e : Expr S} (h : t.Denotes declared e) :
    (t.map φ).Denotes declared (e.relabel id φ) := by
  induction h with
  | number x => exact .number (φ x)
  | symbol hn =>
    rw [relabel_named]
    exact .symbol hn
  | paren _ ih => exact .paren ih
  | neg _ ih =>
    rw [relabel_negated hφ]
    exact .neg ih
  | transpose _ ih =>
    rw [Expr.relabel_transposed]
    exact .transpose ih
  | binary op _ _ iha ihb =>
    rw [relabel_joined hφ]
    exact .binary op iha ihb
  | trace hf _ ih =>
    rw [Expr.relabel_traced]
    exact .trace hf ih
  | differential ht hn =>
    rw [Expr.relabel, relabel_named]
    exact .differential ((Tree.symbol?_map φ _).trans ht) hn

/-- A formula with other numbers stands for the expression with those numbers. -/
theorem relabel_toExpr {f : Formula S} {g : Formula T} {e : Expr S} (h : f.toExpr declared = .ok e)
    (ht : g.tree = f.tree.map φ) : g.toExpr declared = .ok (e.relabel id φ) := by
  rw [toExpr_eq_ok, ht]
  exact (toExpr_eq_ok.1 h).relabel hφ

end Relabelled

end Formula

namespace Expr

variable {S T : Type}

theorem postOrder_relabel (ρ : String → String) (φ : S → T) (e : Expr S) :
    (e.relabel ρ φ).postOrder = e.postOrder.map (relabel ρ φ) := by
  induction e with
  | var | scalarVar | literal | null => rfl
  | differential a ih | trace a ih | transpose a ih => simp [relabel, postOrder, ih]
  | add a b iha ihb | sub a b iha ihb | scale a b iha ihb | matMul a b iha ihb =>
    simp [relabel, postOrder, iha, ihb]

theorem Literals.relabel {ρ : String → String} {φ : S → T} {P : T → Prop} {e : Expr S}
    (h : e.Literals fun x => P (φ x)) : (e.relabel ρ φ).Literals P := by
  intro y hy
  rw [postOrder_relabel] at hy
  obtain ⟨s, hs, hsy⟩ := List.mem_map.1 hy
  cases s with
  | literal x =>
    cases hsy
    exact h x hs
  | _ => cases hsy

variable [Scalar S] [Scalar T] {declared : Declarations} {source : String}

/-- What holds of the numerals, and of what is calculated from such numbers, holds of the literals
of whatever is read. -/
theorem literals_of_read {P : S → Prop} {e : Expr S} (hP : Calculated P)
    (hn : ∀ n, P (Scalar.ofNumeral n)) (h : Expr.read declared source = .ok e) : e.Literals P := by
  obtain ⟨f, hf, he⟩ := read_eq_ok.1 h
  exact Formula.literals_toExpr hP ((Formula.derives_of_parse hf).numbers hn) he

/-- What is read over some numbers is read over others too, if numerals stand for numbers and are
calculated with alike. -/
theorem exists_read_relabel {φ : S → T} {ψ : T → S} {e : Expr T} (hφ : Relabelling id φ)
    (hψ : ∀ n, ψ (Scalar.ofNumeral n) = Scalar.ofNumeral n) (hφψ : ∀ x, φ (ψ x) = x)
    (h : Expr.read declared source = .ok e) :
    ∃ w : Expr S, Expr.read declared source = .ok w ∧ w.relabel id φ = e := by
  obtain ⟨g, hg, he⟩ := read_eq_ok.1 h
  have hd : Formula.Derives .sum (Word.ofSource source) (g.tree.map ψ) :=
    (Formula.derives_of_parse hg).map hψ
  obtain ⟨f, hf, htree⟩ := Formula.parse_of_derives hd
  have hsensible : f.tree.Sensible := by
    rw [htree, Formula.Tree.sensible_map]
    exact Formula.exists_toExpr_iff.1 ⟨e, he⟩
  obtain ⟨w, hw⟩ := Formula.exists_toExpr_iff.2 hsensible
  refine ⟨w, read_eq_ok.2 ⟨f, hf, hw⟩, ?_⟩
  have hback : g.tree = f.tree.map φ := by rw [htree, Formula.Tree.map_map hφψ]
  have hboth := Formula.relabel_toExpr hφ hw hback
  rw [he] at hboth
  cases hboth
  rfl

end Expr

end TraceCalculus
