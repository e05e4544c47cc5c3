import TraceCalculus.Differential
import TraceCalculus.Proofs.Building

/-! # Other names and other numbers

`Expr.relabel ρ f` gives the variables of an expression the names that `ρ` has for them, and its
literals the numbers that `f` has. Where `ρ` tells names apart and `f` is a homomorphism that tells
numbers apart (`Relabelling`), no constructor sees a difference, and neither does differentiation
(`Expr.relabel_differentiate`).
-/

set_option autoImplicit false

namespace TraceCalculus

variable {S T : Type}

/-- Names and numbers are told apart as before, and the calculation with numbers is the same. -/
structure Relabelling [Scalar S] [Scalar T] (ρ : String → String) (f : S → T) : Prop where
  injective : Function.Injective ρ
  beq (x y : S) : (f x == f y) = (x == y)
  alike (x y : S) : Scalar.alike (f x) (f y) = Scalar.alike x y
  anew (x : S) : f (Scalar.anew x) = Scalar.anew (f x)
  add (x y : S) : f (x + y) = f x + f y
  sub (x y : S) : f (x - y) = f x - f y
  mul (x y : S) : f (x * y) = f x * f y
  neg (x : S) : f (-x) = -f x
  one : f 1 = 1

namespace Expr

/-- The expression with other names and numbers. -/
def relabel (ρ : String → String) (f : S → T) : Expr S → Expr T
  | .var name => .var (ρ name)
  | .scalarVar name => .scalarVar (ρ name)
  | .literal x => .literal (f x)
  | .null => .null
  | .differential a => .differential (a.relabel ρ f)
  | .add a b => .add (a.relabel ρ f) (b.relabel ρ f)
  | .sub a b => .sub (a.relabel ρ f) (b.relabel ρ f)
  | .scale a b => .scale (a.relabel ρ f) (b.relabel ρ f)
  | .matMul a b => .matMul (a.relabel ρ f) (b.relabel ρ f)
  | .trace a => .trace (a.relabel ρ f)
  | .transpose a => .transpose (a.relabel ρ f)

attribute [local simp] relabel

section Shape

variable (ρ : String → String) (f : S → T) (e : Expr S)

@[simp] theorem isScalar_relabel : (e.relabel ρ f).isScalar = e.isScalar := by
  induction e with
  | scale a b iha ihb => rw [relabel, isScalar, isScalar, iha, ihb]
  | _ => rfl

@[simp] theorem isNull_relabel : (e.relabel ρ f).isNull = e.isNull := by
  cases e <;> rfl

@[simp] theorem value?_relabel : (e.relabel ρ f).value? = e.value?.map f := by
  cases e <;> rfl

@[simp] theorem scaled?_relabel : (e.relabel ρ f).scaled? =
    e.scaled?.map fun p => (p.1.relabel ρ f, p.2.relabel ρ f) := by
  cases e <;> rfl

@[simp] theorem spine_relabel : (e.relabel ρ f).spine = e.spine := by
  induction e with
  | scale a b iha ihb => rw [relabel, spine, spine, iha, ihb]
  | _ => rfl

@[simp] theorem contains_relabel (k : Kind) : (e.relabel ρ f).contains k = e.contains k := by
  induction e with
  | var | scalarVar | literal | null => rfl
  | differential _ ih | trace _ ih | transpose _ ih => simp [contains, ih]
  | add _ _ iha ihb | sub _ _ iha ihb | scale _ _ iha ihb | matMul _ _ iha ihb =>
    simp [contains, iha, ihb]

theorem relabel_transposed : e.transposed.relabel ρ f = (e.relabel ρ f).transposed := by
  cases e with
  | scale a b =>
    cases hs : a.isScalar && b.isScalar <;>
      simp only [transposed, relabel, isScalar, isScalar_relabel, hs, if_true, Bool.false_eq_true, if_false]
  | _ => rfl

theorem relabel_traced : e.traced.relabel ρ f = (e.relabel ρ f).traced := by
  cases e with
  | scale a b =>
    cases hs : a.isScalar && b.isScalar <;>
      simp only [traced, relabel, isScalar, isScalar_relabel, hs, if_true, Bool.false_eq_true, if_false]
  | _ => rfl

end Shape

variable [Scalar S] [Scalar T] {ρ : String → String} {f : S → T}

section Constructors

variable (h : Relabelling ρ f) (a b e : Expr S)
include h

theorem relabel_asOperand : e.asOperand.relabel ρ f = (e.relabel ρ f).asOperand := by
  cases e with
  | literal x => exact congrArg literal (h.anew x)
  | _ => rfl

theorem sameOperand_relabel :
    (a.relabel ρ f).sameOperand (b.relabel ρ f) = a.sameOperand b := by
  induction a generalizing b with
  | var | scalarVar =>
    cases b <;> try rfl
    simp only [relabel, sameOperand]
    exact decide_eq_decide.2 h.injective.eq_iff
  | literal x =>
    cases b <;> try rfl
    exact h.alike _ _
  | null => cases b <;> rfl
  | differential a ih | trace a ih | transpose a ih =>
    cases b <;> try rfl
    exact ih _
  | add a b iha ihb | sub a b iha ihb | scale a b iha ihb | matMul a b iha ihb =>
    cases b <;> try rfl
    simp only [relabel, sameOperand, iha, ihb]

theorem beq_relabel : (a.relabel ρ f == b.relabel ρ f) = (a == b) := by
  change (a.relabel ρ f).same (b.relabel ρ f) = a.same b
  have hsame := sameOperand_relabel h a b
  cases a <;> cases b <;> try exact hsame
  exact h.beq _ _

theorem relabel_productWithin (depth : Nat) : (productWithin depth a b).relabel ρ f =
    productWithin depth (a.relabel ρ f) (b.relabel ρ f) := by
  have hone : ∀ x, (f x == 1) = (x == 1) := fun x => by rw [← h.one, h.beq]
  induction depth generalizing a b with
  | zero => rfl
  | succ depth ih =>
    have hcombine : (combine (productWithin depth) a b).relabel ρ f =
        combine (productWithin depth) (a.relabel ρ f) (b.relabel ρ f) := by
      simp only [combine, isScalar_relabel, scaled?_relabel]
      cases a.scaled? <;> cases b.scaled? <;> simp only [Option.map] <;> repeat' split
      all_goals simp only [relabel, ih, relabel_asOperand h]
    simp only [productWithin, productStep, isNull_relabel, value?_relabel]
    split
    · rfl
    · cases a.value? <;> cases b.value? <;> simp only [Option.map, hone]
      · exact hcombine
      · split
        · rfl
        · exact ih _ _
      · split
        · rfl
        · exact hcombine
      · exact congrArg literal (h.mul _ _)

theorem relabel_times : (a * b).relabel ρ f = a.relabel ρ f * b.relabel ρ f := by
  change (times a b).relabel ρ f = times _ _
  simp only [times, productDepth, spine_relabel]
  exact relabel_productWithin h a b _

theorem relabel_plus : (a + b).relabel ρ f = a.relabel ρ f + b.relabel ρ f := by
  have htwo : f Scalar.two = Scalar.two := by rw [Scalar.two, h.add, h.one, Scalar.two]
  simp only [plus_eq_ite, isNull_relabel, value?_relabel, beq_relabel h]
  split
  · rfl
  split
  · rfl
  cases a.value? <;> cases b.value? <;> simp only [Option.map, relabel, h.add]
  all_goals
    split
    · rw [relabel_times h, relabel, htwo]
    · rw [relabel, relabel_asOperand h, relabel_asOperand h]

theorem relabel_minus : (a - b).relabel ρ f = a.relabel ρ f - b.relabel ρ f := by
  simp only [minus_eq_ite, isNull_relabel, value?_relabel, beq_relabel h]
  split
  · rfl
  split
  · rw [relabel_times h, relabel, h.neg, h.one]
  split
  · rfl
  cases a.value? <;> cases b.value? <;> simp only [Option.map, relabel, h.sub, relabel_asOperand h]

/-- The differential is the same up to names and numbers. -/
theorem relabel_differentiate (wrt : String) : (e.differentiate wrt).relabel ρ f =
    (e.relabel ρ f).differentiate (ρ wrt) := by
  induction e with
  | scalarVar | literal | null | differential => rfl
  | var name =>
    simp only [relabel, differentiate, h.injective.eq_iff]
    split <;> rfl
  | scale a b _ ihb => rw [relabel, differentiate, differentiate, relabel_times h, ihb]
  | add a b iha ihb => rw [relabel, differentiate, differentiate, relabel_plus h, iha, ihb]
  | sub a b iha ihb => rw [relabel, differentiate, differentiate, relabel_minus h, iha, ihb]
  | matMul a b iha ihb =>
    rw [relabel, differentiate, differentiate, relabel_plus h, relabel_times h, relabel_times h, iha,
      ihb]
  | trace a ih => rw [relabel, differentiate, differentiate, relabel_traced, ih]
  | transpose a ih => rw [relabel, differentiate, differentiate, relabel_transposed, ih]

end Constructors

end Expr

end TraceCalculus
