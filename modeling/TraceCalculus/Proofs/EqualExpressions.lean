import TraceCalculus.Proofs.Instances
import TraceCalculus.Proofs.Overflow

/-! # Expressions that compare equal

Two doubles can compare equal and not be the same: the zeros have different signs. On expressions
whose literals are all numbers `==` is an equivalence relation, and nothing tells two equal
expressions apart (`Expr.Interchangeable`): they are hashed alike, contain the same kinds of nodes,
match the same patterns with equal bindings, and whatever is built from one of them equals what is
built from the other, as long as no literal of it stops being a number (`Expr.interchangeable_of_beq`).

The argument goes through `Expr.Congruent`, where what is not a number is equivalent to itself. So it
does not matter what happens on the way to a result: if all literals of the result are numbers, then
congruent and equal are the same (`Expr.Congruent.beq_of_allNumbers`).
-/

set_option autoImplicit false

namespace TraceCalculus

open Float.Model (UnpackedFloat)

/-- A double other than zero is told by its bits, and the zeros share the key of one of them. -/
theorem key_eq_of_equivalent {x y : Float} (h : CongruentScalar.Equivalent x y) :
    Scalar.key x = Scalar.key y := by
  have hzero : (x == 0.0) = (y == 0.0) := CongruentScalar.beq_congr h (CongruentScalar.refl _)
  change (if x == 0.0 then (0.0 : Float).toBits else x.toBits) =
    if y == 0.0 then (0.0 : Float).toBits else y.toBits
  rw [hzero]
  split
  case isTrue => rfl
  case isFalse hy =>
    -- equivalent numbers other than zero are one number, and the bits of a double follow from it
    change SameNumber x.toModel.unpack y.toModel.unpack at h
    have hzeros : ∀ t, y.toModel.unpack ≠ .zero t := by
      intro t ht
      refine hy ?_
      change y.toModel.unpack.beq (0.0 : Float).toModel.unpack = true
      rw [ht]
      cases t <;> rfl
    have hsame : x.toModel.unpack = y.toModel.unpack := by
      generalize x.toModel.unpack = u at h
      generalize y.toModel.unpack = v at h hzeros
      cases h with
      | refl => rfl
      | zeros s t => exact absurd rfl (hzeros t)
    exact UInt64.toBitVec_inj.1
      ((UnpackedFloat.unpack_inj_of_valid x.toModel.valid y.toModel.valid).1 hsame)

namespace Expr

/-! ## Congruent results -/

section Congruent

variable {S : Type} [Scalar S] [CongruentScalar S] {a b a' b' : Expr S}

theorem Congruent.joined (op : Operator) (ha : a.Congruent a') (hb : b.Congruent b') :
    (a.joined op b).Congruent (a'.joined op b') := by
  cases op with
  | plus => exact ha.plus hb
  | minus => exact ha.minus hb
  | times => exact ha.times hb

theorem Congruent.tidied (h : a.Congruent b) : a.tidied.Congruent b.tidied := by
  cases h with
  | add ha hb => exact ha.plus hb
  | sub ha hb => exact ha.minus hb
  | scale ha hb | matMul ha hb => exact ha.times hb
  | trace ha => exact ha.traced
  | transpose ha => exact ha.transposed
  | var | scalarVar | null => exact .refl _
  | literal hx => exact .literal hx
  | differential ha => exact .differential ha

theorem Congruent.differentiate (wrt : String) (h : a.Congruent b) :
    (a.differentiate wrt).Congruent (b.differentiate wrt) := by
  induction h with
  | var | scalarVar => exact .refl _
  | literal | null | differential => exact .null
  | scale ha _ _ ihb => exact ha.times ihb
  | add _ _ iha ihb => exact iha.plus ihb
  | sub _ _ iha ihb => exact iha.minus ihb
  | matMul ha hb iha ihb => exact (iha.times hb).plus (ha.times ihb)
  | trace _ ih => exact ih.traced
  | transpose _ ih => exact ih.transposed

end Congruent

/-! ## Equal results -/

variable {a a' b e : Expr Float}

/-- Every literal of the expression is a number. -/
def AllNumbers (e : Expr Float) : Prop := e.Literals fun x => x.isNaN = false

theorem allNumbers_iff : e.AllNumbers ↔ (e == e) = true := beq_self_iff_isNaN.symm

theorem Congruent.beq_of_allNumbers (h : a.Congruent b) (ha : a.AllNumbers) : (a == b) = true := by
  rw [← (Congruent.refl a).beq h]
  exact allNumbers_iff.1 ha

theorem beq_iff_congruent : (a == b) = true ↔ a.Congruent b ∧ a.AllNumbers := by
  refine ⟨fun h => ?_, fun h => h.1.beq_of_allNumbers h.2⟩
  have hc := Congruent.of_beq h
  exact ⟨hc, allNumbers_iff.2 (by rwa [(Congruent.refl a).beq hc])⟩

/-- Equal expressions are written out in the same marks. -/
theorem Congruent.marks_eq (h : a.Congruent b) : a.marks = b.marks := by
  induction h with
  | literal hx => simp only [marks, key_eq_of_equivalent hx]
  | var | scalarVar | null => rfl
  | differential _ ih | trace _ ih | transpose _ ih => simp only [marks, ih]
  | add _ _ iha ihb | sub _ _ iha ihb | scale _ _ iha ihb | matMul _ _ iha ihb =>
    simp only [marks, iha, ihb]

end Expr

/-- The variables have taken equal expressions. -/
def Assignment.Equal (σ τ : Assignment Float) : Prop :=
  ∀ name, Option.Rel (fun e e' : Expr Float => (e == e') = true) (σ.get? name) (τ.get? name)

/-- Two attempts to match both give equal bindings, or fail for one reason. -/
inductive MatchesEqually : Except MatchFailure (Assignment Float) →
    Except MatchFailure (Assignment Float) → Prop
  | ok {σ τ : Assignment Float} (h : σ.Equal τ) : MatchesEqually (.ok σ) (.ok τ)
  | error (f : MatchFailure) : MatchesEqually (.error f) (.error f)

namespace Assignment

variable {σ τ : Assignment Float}

theorem Equal.congruent (h : σ.Equal τ) : σ.Congruent τ := fun name => by
  have hn := h name
  generalize σ.get? name = x at hn ⊢
  generalize τ.get? name = y at hn ⊢
  cases hn with
  | none => exact .none
  | some h => exact .some (.of_beq h)

theorem Congruent.equal (h : σ.Congruent τ) (hσ : σ.All Expr.AllNumbers) : σ.Equal τ := fun name => by
  have hn := h name
  have hnumbers := hσ name
  generalize σ.get? name = x at hn hnumbers ⊢
  generalize τ.get? name = y at hn ⊢
  cases hn with
  | none => exact .none
  | some h => exact .some (h.beq_of_allNumbers (hnumbers _ rfl))

end Assignment

/-- What the variables of a pattern take are parts of the expression, so their literals are numbers,
too. -/
theorem matchesEqually_of_beq {e e' : Expr Float} (h : (e == e') = true) (p : Expr Float) :
    MatchesEqually (e.matchAgainst p) (e'.matchAgainst p) := by
  obtain ⟨hc, hnumbers⟩ := Expr.beq_iff_congruent.1 h
  have hmatches : MatchesAlike (p.matchFrom e []) (p.matchFrom e' []) :=
    matchFrom_congruent p hc fun _ => .none
  have hnil : Assignment.All Expr.AllNumbers ([] : Assignment Float) := nofun
  unfold Expr.matchAgainst
  generalize hr : p.matchFrom e [] = r at hmatches ⊢
  generalize p.matchFrom e' [] = r' at hmatches ⊢
  cases hmatches with
  | ok h => exact .ok (h.equal (hnil.matchFrom Expr.Literals.of_mem_children hnumbers hr))
  | error f => exact .error f

namespace Expr

/-- Nothing tells the two expressions apart. -/
structure Interchangeable (a a' : Expr Float) : Prop where
  marks : a.marks = a'.marks
  contains (k : Kind) : a.contains k = a'.contains k
  joined (op : Operator) (b b' : Expr Float) : (b == b') = true → (a.joined op b).AllNumbers →
    (a.joined op b == a'.joined op b') = true
  transposed : (a.transposed == a'.transposed) = true
  traced : (a.traced == a'.traced) = true
  tidied : a.tidied.AllNumbers → (a.tidied == a'.tidied) = true
  differentiate (wrt : String) : (a.differentiate wrt).AllNumbers →
    (a.differentiate wrt == a'.differentiate wrt) = true
  matchAgainst (p : Expr Float) : MatchesEqually (a.matchAgainst p) (a'.matchAgainst p)

/-- Where all literals are numbers, equality is an equivalence relation, and equal expressions are
interchangeable. So are equal bindings of the variables of a rule. -/
theorem interchangeable_of_beq :
    (Equivalence fun a b : {e : Expr Float // e.AllNumbers} => (a.1 == b.1) = true) ∧
    (∀ a a' : Expr Float, (a == a') = true → Interchangeable a a') ∧
    ∀ (rule : Rule Float) (σ τ : Assignment Float), σ.Equal τ → (rule.apply σ).AllNumbers →
      (rule.apply σ == rule.apply τ) = true := by
  refine ⟨⟨fun a => allNumbers_iff.1 a.2, fun {a b} h => ?_, fun {a b c} h h' => ?_⟩,
    fun a a' h => ?_, fun rule σ τ h hnumbers => ?_⟩
  · exact (Congruent.of_beq h).symm.beq_of_allNumbers b.2
  · exact ((Congruent.of_beq h).trans (.of_beq h')).beq_of_allNumbers a.2
  · obtain ⟨hc, hnumbers⟩ := beq_iff_congruent.1 h
    exact {
      marks := hc.marks_eq
      contains := fun k => hc.contains_eq k
      joined := fun op b b' hb => (hc.joined op (.of_beq hb)).beq_of_allNumbers
      transposed := hc.transposed.beq_of_allNumbers hnumbers.transposed
      traced := hc.traced.beq_of_allNumbers hnumbers.traced
      tidied := hc.tidied.beq_of_allNumbers
      differentiate := fun wrt => (hc.differentiate wrt).beq_of_allNumbers
      matchAgainst := matchesEqually_of_beq h }
  · exact (rule.apply_congruent h.congruent).beq_of_allNumbers hnumbers

/-- A matrix with a zero for its factor, of either sign. -/
def zeroMultiple (zero : Float) : Expr Float := .scale (.literal zero) (.var "X")

/-- A rule that doubles what it matches. -/
def doubling : Rule Float := ⟨.var "A", .add (.var "A") (.var "A")⟩

theorem interchangeable_of_beq_zeroMultiple :
    (zeroMultiple 0.0 == zeroMultiple (-0.0)) = true ∧
    Interchangeable (zeroMultiple 0.0) (zeroMultiple (-0.0)) ∧
    (doubling.apply [("A", zeroMultiple 0.0)] == doubling.apply [("A", zeroMultiple (-0.0))]) =
      true := by
  have hbeq : (zeroMultiple 0.0 == zeroMultiple (-0.0)) = true := by decide +kernel
  have hequal : Assignment.Equal [("A", zeroMultiple 0.0)] [("A", zeroMultiple (-0.0))] := by
    intro name
    simp only [Assignment.get?, List.lookup_cons, List.lookup_nil]
    split
    · exact .some hbeq
    · exact .none
  have hnumbers : (doubling.apply [("A", zeroMultiple 0.0)]).AllNumbers :=
    allNumbers_iff.2 (by decide +kernel)
  exact ⟨hbeq, interchangeable_of_beq.2.1 _ _ hbeq,
    interchangeable_of_beq.2.2 doubling _ _ hequal hnumbers⟩

end Expr

end TraceCalculus
