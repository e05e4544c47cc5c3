import TraceCalculus.Proofs.Congruence

/-! # Doubles up to the sign of zero

Doubles that compare equal are the same double or both a zero, and neither comparisons nor sums,
differences and products tell the two zeros apart but by the sign of a zero. So doubles are congruent
scalars (`CongruentScalar`), with what is not a number equivalent to itself.
-/

set_option autoImplicit false

namespace TraceCalculus

open Float.Model (UnpackedFloat Format pack)

/-- The same double, or the two zeros. -/
inductive SameNumber : UnpackedFloat → UnpackedFloat → Prop
  | refl (u : UnpackedFloat) : SameNumber u u
  | zeros (s t : UnpackedFloat.Sign) : SameNumber (.zero s) (.zero t)

namespace SameNumber

variable {u u' v v' w : UnpackedFloat}

theorem symm (h : SameNumber u v) : SameNumber v u := by
  cases h with
  | refl => exact .refl u
  | zeros s t => exact .zeros t s

theorem trans (h : SameNumber u v) (h' : SameNumber v w) : SameNumber u w := by
  cases h with
  | refl => exact h'
  | zeros s t =>
    cases h' with
    | refl => exact .zeros s t
    | zeros _ r => exact .zeros s r

theorem beq_eq (h : SameNumber u u') (h' : SameNumber v v') : u.beq v = u'.beq v' := by
  unfold UnpackedFloat.beq
  congr 1
  cases h with
  | refl =>
    cases h' with
    | refl => rfl
    | zeros s t => cases u with
      | finite sign => cases sign <;> rfl
      | infinity sign => cases sign <;> rfl
      | _ => rfl
  | zeros s t =>
    cases h' with
    | refl => cases v with
      | finite sign => cases sign <;> rfl
      | infinity sign => cases sign <;> rfl
      | _ => rfl
    | zeros => rfl

theorem of_beq (h : u.beq v = true) : SameNumber u v := by
  unfold UnpackedFloat.beq at h
  rw [beq_iff_eq] at h
  cases u with
  | notANumber => cases h
  | zero s =>
    cases v with
    | zero t => exact .zeros s t
    | notANumber => cases h
    | infinity t | finite t => cases t <;> cases h
  | infinity s =>
    cases v with
    | infinity t => cases s <;> cases t <;> first | exact .refl _ | cases h
    | _ => cases s <;> cases h
  | finite s m e =>
    cases v with
    | finite t n d =>
      have key : (compare e d).then (compare m n) = .eq → e = d ∧ m = n := by
        intro hc
        obtain ⟨he, hm⟩ := Ordering.then_eq_eq.1 hc
        exact ⟨Std.LawfulEqCmp.eq_of_compare he, Std.LawfulEqCmp.eq_of_compare hm⟩
      cases s <;> cases t <;> try cases h
      · obtain ⟨rfl, rfl⟩ := key (Ordering.swap_eq_eq.1 (Option.some.inj h))
        exact .refl _
      · obtain ⟨rfl, rfl⟩ := key (Option.some.inj h)
        exact .refl _
    | notANumber => cases h
    | zero => cases s <;> cases h
    | infinity t => cases s <;> cases t <;> cases h

/-- An operation keeps the sameness if it does where one operand is a zero. -/
theorem congr {op : UnpackedFloat → UnpackedFloat → UnpackedFloat}
    (hleft : ∀ s t v, SameNumber (op (.zero s) v) (op (.zero t) v))
    (hright : ∀ u s t, SameNumber (op u (.zero s)) (op u (.zero t)))
    (h : SameNumber u u') (h' : SameNumber v v') : SameNumber (op u v) (op u' v') := by
  have hu : SameNumber (op u v) (op u' v) := by
    cases h with
    | refl => exact .refl _
    | zeros s t => exact hleft s t v
  have hv : SameNumber (op u' v) (op u' v') := by
    cases h' with
    | refl => exact .refl _
    | zeros s t => exact hright u' s t
  exact hu.trans hv

theorem add (f : Format) (h : SameNumber u u') (h' : SameNumber v v') :
    SameNumber (u.add f v) (u'.add f v') := by
  refine congr (fun s t v => ?_) (fun u s t => ?_) h h'
  · cases v with
    | zero r => cases r <;> cases s <;> cases t <;> constructor
    | _ => exact .refl _
  · cases u with
    | zero r => cases r <;> cases s <;> cases t <;> constructor
    | _ => exact .refl _

theorem sub (f : Format) (h : SameNumber u u') (h' : SameNumber v v') :
    SameNumber (u.sub f v) (u'.sub f v') := by
  refine congr (fun s t v => ?_) (fun u s t => ?_) h h'
  · cases v with
    | zero r => cases r <;> cases s <;> cases t <;> constructor
    | _ => exact .refl _
  · cases u with
    | zero r => cases r <;> cases s <;> cases t <;> constructor
    | _ => exact .refl _

theorem mul (f : Format) (h : SameNumber u u') (h' : SameNumber v v') :
    SameNumber (u.mul f v) (u'.mul f v') := by
  refine congr (fun s t v => ?_) (fun u s t => ?_) h h'
  · cases v with
    | zero r => cases r <;> cases s <;> cases t <;> constructor
    | finite => exact .zeros _ _
    | _ => exact .refl _
  · cases u with
    | zero r => cases r <;> cases s <;> cases t <;> constructor
    | finite => exact .zeros _ _
    | _ => exact .refl _

/-- A zero is packed with its sign. -/
theorem pack (h : SameNumber u v) : SameNumber (pack u).unpack (pack v).unpack := by
  cases h with
  | refl => exact .refl _
  | zeros s t => cases s <;> cases t <;> constructor

end SameNumber

instance : CongruentScalar Float where
  Equivalent x y := SameNumber x.toModel.unpack y.toModel.unpack
  refl _ := .refl _
  symm := .symm
  trans := .trans
  of_beq := .of_beq
  of_alike := .of_beq
  beq_congr := SameNumber.beq_eq
  alike_congr := SameNumber.beq_eq
  add_congr h h' := (h.add _ h').pack
  sub_congr h h' := (h.sub _ h').pack
  mul_congr h h' := (h.mul _ h').pack
  anew_congr := id

instance : NumericScalar Float where
  alike_eq _ _ := rfl
  anew_eq _ := rfl

end TraceCalculus
