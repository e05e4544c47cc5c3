import TraceCalculus.Proofs.Bulk

/-! # Expressions of first order in differentials

An expression is of first order if it multiplies no two differentials with each other
(`Expr.order`). On such expressions no rule leads back to where another one came from: there is a
measure that every rule makes smaller (`Stage.falls_output`), and that no constructor makes larger.

It looks at three numbers, each where those before it are equal:

* `Expr.height` tells how much is left to be distributed over sums with a differential, and how many
  transposes such a differential is in;
* `Expr.heft` goes down where a transpose or a scalar leaves something, or a differential moves to
  the right of a product;
* `Expr.overhang` goes down where products associate to the left.

`Expr.Falls k a b` compares two expressions so; `k` tells by how much the last number falls at
least, so that `0` stands for going down or staying and `1` for going down.
-/

set_option autoImplicit false

namespace TraceCalculus

variable {S : Type}

namespace Expr

/-- How many differentials are multiplied with each other, at most. -/
@[simp] def order : Expr S → Nat
  | .var _ | .scalarVar _ | .literal _ | .null => 0
  | .differential a => max 1 a.order
  | .add a b | .sub a b => max a.order b.order
  | .scale a b | .matMul a b => a.order + b.order
  | .trace a | .transpose a => a.order

/-- How many factors a product has, at most, once it is multiplied out. -/
@[simp] def factors : Expr S → Nat
  | .add a b | .sub a b | .scale a b => max a.factors b.factors
  | .matMul a b => a.factors + b.factors
  | .transpose a => a.factors
  | _ => 1

/-- The number of sums and differences that have a differential. -/
@[simp] def sums : Expr S → Nat
  | .add a b | .sub a b => a.sums + b.sums + max a.order b.order
  | .scale a b | .matMul a b => a.sums + b.sums
  | .differential a | .trace a | .transpose a => a.sums
  | _ => 0

/-- How far sums with a differential are from being outside of everything else. -/
@[simp] def height : Expr S → Nat
  | .add a b | .sub a b => a.height + b.height + 2 * max a.order b.order
  | .scale a b => a.height + b.height
  | .matMul a b => a.height + b.height + 2 * (a.factors * b.sums + b.factors * a.sums)
  | .differential a => a.height
  | .trace a => a.height + 2 * a.sums
  | .transpose a => a.height + 2 * a.sums + a.order
  | _ => 0

/-- How far transposes are from the leaves, scalars from the outside, and differentials from the
right of products. -/
@[simp] def heft : Expr S → Nat
  | .add a b | .sub a b => a.heft + b.heft + 2
  | .scale a b => a.heft + b.heft + 1
  | .matMul a b => a.heft + b.heft + 1 + a.order * b.factors
  | .differential a => a.heft + 1
  | .trace a => 2 * a.heft
  | .transpose a => (a.heft + 1) * (a.heft + 1)
  | _ => 1

/-- The number of factors to the right of the products. -/
@[simp] def overhang : Expr S → Nat
  | .matMul a b => a.overhang + b.overhang + b.factors
  | .add a b | .sub a b | .scale a b => a.overhang + b.overhang
  | .differential a | .trace a | .transpose a => a.overhang
  | _ => 0

/-- `b` is below `a`, by `k` if only the last number tells. -/
structure Falls (k : Nat) (a b : Expr S) : Prop where
  order_le : b.order ≤ a.order
  factors_le : b.factors ≤ a.factors
  sums_le : b.sums ≤ a.sums
  descends : b.height < a.height ∨ b.height = a.height ∧
    (b.heft < a.heft ∨ b.heft = a.heft ∧ b.overhang + k ≤ a.overhang)

variable {a a' b b' c e r s : Expr S} {i k : Nat}

theorem factors_pos (e : Expr S) : 0 < e.factors := by
  induction e <;> simp only [factors] <;> omega

theorem heft_pos (e : Expr S) : 0 < e.heft := by
  induction e with
  | transpose a => exact Nat.mul_pos (Nat.succ_pos _) (Nat.succ_pos _)
  | _ =>
    simp only [heft]
    omega

theorem factors_le_heft (e : Expr S) : e.factors ≤ e.heft := by
  induction e with
  | transpose a ih =>
    have := Nat.le_mul_self (a.heft + 1)
    simp only [factors, heft]
    omega
  | trace a =>
    have := heft_pos a
    simp only [factors, heft]
    omega
  | _ =>
    simp only [factors, heft]
    omega

theorem order_eq_zero_iff : e.order = 0 ↔ e.hasDifferential = false := by
  induction e <;> simp_all [order, hasDifferential, contains, kind]

theorem order_pos (h : e.hasDifferential = true) : 0 < e.order := by
  rw [Nat.pos_iff_ne_zero, Ne, order_eq_zero_iff, h]
  exact nofun

/-- Only what has a differential counts. -/
theorem sums_height_of_order (h : e.order = 0) : e.sums = 0 ∧ e.height = 0 := by
  induction e with
  | var | scalarVar | literal | null => exact ⟨rfl, rfl⟩
  | differential =>
    simp only [order] at h
    omega
  | add _ _ iha ihb | sub _ _ iha ihb =>
    simp only [order] at h
    obtain ⟨hsa, hha⟩ := iha (by omega)
    obtain ⟨hsb, hhb⟩ := ihb (by omega)
    simp only [sums, height]
    omega
  | scale _ _ iha ihb =>
    simp only [order] at h
    obtain ⟨hsa, hha⟩ := iha (by omega)
    obtain ⟨hsb, hhb⟩ := ihb (by omega)
    simp only [sums, height]
    omega
  | matMul _ _ iha ihb =>
    simp only [order] at h
    obtain ⟨hsa, hha⟩ := iha (by omega)
    obtain ⟨hsb, hhb⟩ := ihb (by omega)
    simp [sums, height, hsa, hha, hsb, hhb]
  | trace _ ih | transpose _ ih =>
    simp only [order] at h
    obtain ⟨hs, hh⟩ := ih h
    simp only [sums, height]
    omega

theorem order_factors_of_isScalar (h : s.isScalar = true) : s.order = 0 ∧ s.factors = 1 := by
  induction s with
  | literal | scalarVar => exact ⟨rfl, rfl⟩
  | scale a b iha ihb =>
    simp only [isScalar, Bool.and_eq_true] at h
    simp [order, factors, iha h.1, ihb h.2]
  | _ => cases h

theorem falls_self (a : Expr S) : Falls 0 a a :=
  ⟨Nat.le_refl _, Nat.le_refl _, Nat.le_refl _, .inr ⟨rfl, .inr ⟨rfl, Nat.le_refl _⟩⟩⟩

theorem Falls.trans (h : Falls i a b) (h' : Falls k b c) : Falls (i + k) a c where
  order_le := h'.order_le.trans h.order_le
  factors_le := h'.factors_le.trans h.factors_le
  sums_le := h'.sums_le.trans h.sums_le
  descends := by
    have := h.descends
    have := h'.descends
    omega

/-- All numbers are compared one by one. -/
theorem falls_of_le (ho : b.order ≤ a.order) (hf : b.factors ≤ a.factors) (hs : b.sums ≤ a.sums)
    (hh : b.height ≤ a.height) (hw : b.heft ≤ a.heft) (hv : b.overhang + k ≤ a.overhang) :
    Falls k a b := by
  refine ⟨ho, hf, hs, ?_⟩
  omega

/-! ## Nodes over operands that fall -/

theorem Falls.differential (h : Falls k a a') : Falls k (.differential a) (.differential a') := by
  obtain ⟨ho, hf, hs, hd⟩ := h
  constructor <;> simp only [order, factors, sums, height, heft, overhang] <;> omega

theorem Falls.add (ha : Falls i a a') (hb : Falls k b b') :
    Falls (i + k) (.add a b) (.add a' b') := by
  obtain ⟨hoa, hfa, hsa, hda⟩ := ha
  obtain ⟨hob, hfb, hsb, hdb⟩ := hb
  constructor <;> simp only [order, factors, sums, height, heft, overhang] <;> omega

theorem Falls.sub (ha : Falls i a a') (hb : Falls k b b') :
    Falls (i + k) (.sub a b) (.sub a' b') := by
  obtain ⟨ho, hf, hs, hd⟩ := ha.add hb
  exact ⟨ho, hf, hs, hd⟩

theorem Falls.scale (ha : Falls i a a') (hb : Falls k b b') :
    Falls (i + k) (.scale a b) (.scale a' b') := by
  obtain ⟨hoa, hfa, hsa, hda⟩ := ha
  obtain ⟨hob, hfb, hsb, hdb⟩ := hb
  constructor <;> simp only [order, factors, sums, height, heft, overhang] <;> omega

theorem Falls.matMul (ha : Falls i a a') (hb : Falls k b b') :
    Falls (i + k) (.matMul a b) (.matMul a' b') := by
  have hab := Nat.mul_le_mul ha.factors_le hb.sums_le
  have hba := Nat.mul_le_mul hb.factors_le ha.sums_le
  have hof := Nat.mul_le_mul ha.order_le hb.factors_le
  obtain ⟨hoa, hfa, hsa, hda⟩ := ha
  obtain ⟨hob, hfb, hsb, hdb⟩ := hb
  constructor <;> simp only [order, factors, sums, height, heft, overhang] <;> omega

theorem Falls.trace (h : Falls k a a') : Falls k (.trace a) (.trace a') := by
  obtain ⟨ho, hf, hs, hd⟩ := h
  constructor <;> simp only [order, factors, sums, height, heft, overhang] <;> omega

theorem Falls.transpose (h : Falls k a a') : Falls k (.transpose a) (.transpose a') := by
  obtain ⟨ho, hf, hs, hd⟩ := h
  refine ⟨ho, hf, hs, ?_⟩
  simp only [height, heft, overhang]
  rcases hd with hd | ⟨hh, hd | ⟨hw, hv⟩⟩
  · omega
  · have := Nat.mul_lt_mul'' (Nat.succ_lt_succ hd) (Nat.succ_lt_succ hd)
    simp only [Nat.succ_eq_add_one] at this
    omega
  · rw [hw]
    omega

/-! ## The constructors -/

section Constructors

variable [Scalar S] [NumericScalar S]

/-- A product with a scalar does not come to lie above the factors. -/
theorem Product.falls_scale (h : Product a b c) (hab : a.isScalar = true ∨ b.isScalar = true)
    (ha : a.Neat) (hb : b.Neat) : Falls 0 (.scale a b) c := by
  induction h with
  | nullLeft b | nullRight b =>
    have := factors_pos b
    have := heft_pos b
    apply falls_of_le <;> simp only [order, factors, sums, height, heft, overhang] <;> omega
  | fold => apply falls_of_le <;> simp [order, factors, sums, height, heft, overhang]
  | oneLeft | oneRight =>
    apply falls_of_le <;> simp only [order, factors, sums, height, heft, overhang] <;> omega
  | swap _ _ _ _ ih =>
    have h := ih (.inl rfl) trivial ha
    refine Falls.trans (falls_of_le ?_ ?_ ?_ ?_ ?_ ?_) h <;>
      simp only [order, factors, sums, height, heft, overhang] <;> omega
  | @mergeLeft a s r t c _ hka ht _ iht ihc =>
    have hkt := ht.isScalar hka hb.2.2.scalar
    have h := ((iht (.inl hka) ha hb.1).scale (falls_self r)).trans
      (ihc (.inl hkt) (ht.neat ha hb.1) hb.2.1)
    refine Falls.trans (falls_of_le ?_ ?_ ?_ ?_ ?_ ?_) h <;>
      simp only [order, factors, sums, height, heft, overhang] <;> omega
  | scaleLeft =>
    rw [asOperand_numeric]
    exact falls_self _
  | @mergeRight s l b t c _ _ hkb ht _ iht ihc =>
    have hkt := ht.isScalar ha.2.2.scalar hkb
    have h := ((iht (.inr hkb) ha.1 hb).scale (falls_self l)).trans
      (ihc (.inl hkt) (ht.neat ha.1 hb) ha.2.1)
    refine Falls.trans (falls_of_le ?_ ?_ ?_ ?_ ?_ ?_) h <;>
      simp only [order, factors, sums, height, heft, overhang] <;> omega
  | scaleRight =>
    apply falls_of_le <;> simp only [order, factors, sums, height, heft, overhang] <;> omega
  | mergeBoth _ hka hkb | hoistLeft _ hka hkb | hoistRight _ hka hkb | matMul _ hka hkb =>
    rw [hka, hkb] at hab
    rcases hab with h | h <;> cases h

omit [Scalar S] [NumericScalar S] in
theorem falls_matMul_scale (a b : Expr S) : Falls 0 (.matMul a b) (.scale a b) := by
  apply falls_of_le <;> simp only [order, factors, sums, height, heft, overhang] <;> omega

/-- A product does not come to lie above the matrix product. -/
theorem Product.falls (h : Product a b c) (ha : a.Neat) (hb : b.Neat) :
    Falls 0 (.matMul a b) c := by
  have key : ∀ {a b c : Expr S}, Product a b c → a.isScalar = true ∨ b.isScalar = true → a.Neat →
      b.Neat → Falls 0 (.matMul a b) c :=
    fun h hab ha hb => (falls_matMul_scale _ _).trans (h.falls_scale hab ha hb)
  induction h with
  | nullLeft b | nullRight b =>
    have := factors_pos b
    have := heft_pos b
    apply falls_of_le <;> simp only [order, factors, sums, height, heft, overhang] <;> omega
  | fold x y => exact key (.fold x y) (.inl rfl) ha hb
  | oneLeft hx hn hv => exact key (.oneLeft hx hn hv) (.inl rfl) ha hb
  | oneRight hn hv hy => exact key (.oneRight hn hv hy) (.inr rfl) ha hb
  | swap hn hv hy h => exact key (.swap hn hv hy h) (.inr rfl) ha hb
  | mergeLeft hp hk ht hc => exact key (.mergeLeft hp hk ht hc) (.inl hk) ha hb
  | scaleLeft hp hk hs => exact key (.scaleLeft hp hk hs) (.inl hk) ha hb
  | mergeRight hp hka hk ht hc => exact key (.mergeRight hp hka hk ht hc) (.inr hk) ha hb
  | scaleRight hp hka hk hs => exact key (.scaleRight hp hka hk hs) (.inr hk) ha hb
  | @mergeBoth s l u r t m c _ _ _ ht hm hc _ ihm _ =>
    have hks := ha.2.2.scalar
    have hku := hb.2.2.scalar
    have h := ((ht.falls_scale (.inl hks) ha.1 hb.1).scale (ihm ha.2.1 hb.2.1)).trans
      (hc.falls_scale (.inl (ht.isScalar hks hku)) (ht.neat ha.1 hb.1) (hm.neat ha.2.1 hb.2.1))
    refine Falls.trans ?_ h
    have hfl := factors_pos l
    obtain ⟨hos, hfs⟩ := order_factors_of_isScalar hks
    obtain ⟨hou, hfu⟩ := order_factors_of_isScalar hku
    apply falls_of_le <;> simp only [order, factors, sums, height, heft, overhang, hos, hfs,
      sums_height_of_order hos, hou, hfu, sums_height_of_order hou,
      Nat.max_eq_right (factors_pos _), Nat.zero_add] <;> omega
  | @hoistLeft s l b m c _ _ _ _ hm hc ihm _ =>
    have hks := ha.2.2.scalar
    have h := ((falls_self s).scale (ihm ha.2.1 hb)).trans
      (hc.falls_scale (.inl hks) ha.1 (hm.neat ha.2.1 hb))
    refine Falls.trans ?_ h
    have hfl := factors_pos l
    obtain ⟨hos, hfs⟩ := order_factors_of_isScalar hks
    apply falls_of_le <;> simp only [order, factors, sums, height, heft, overhang, hos, hfs,
      sums_height_of_order hos, Nat.max_eq_right (factors_pos _), Nat.zero_add] <;> omega
  | @hoistRight a s r m c _ _ _ _ hm hc ihm _ =>
    have hks := hb.2.2.scalar
    have h := ((falls_self s).scale (ihm ha hb.2.1)).trans
      (hc.falls_scale (.inl hks) hb.1 (hm.neat ha hb.2.1))
    refine Falls.trans ?_ h
    have hfa := factors_pos a
    obtain ⟨hos, hfs⟩ := order_factors_of_isScalar hks
    apply falls_of_le <;> simp only [order, factors, sums, height, heft, overhang, hos, hfs,
      sums_height_of_order hos, Nat.max_eq_right (factors_pos _), Nat.zero_add] <;> omega
  | matMul => exact falls_self _

theorem Plus.falls (h : Plus a b c) (ha : a.Neat) : Falls 0 (.add a b) c := by
  have hfa := factors_pos a
  have hfb := factors_pos b
  cases h with
  | nullLeft | nullRight | fold =>
    apply falls_of_le <;> simp only [order, factors, sums, height, heft, overhang] <;> omega
  | double _ _ hc =>
    have := heft_pos b
    refine Falls.trans (falls_of_le ?_ ?_ ?_ ?_ ?_ ?_) (hc.falls_scale (.inl rfl) trivial ha) <;>
      simp only [order, factors, sums, height, heft, overhang] <;> omega
  | add =>
    rw [asOperand_numeric, asOperand_numeric]
    exact falls_self _

theorem Minus.falls (h : Minus a b c) (hb : b.Neat) : Falls 0 (.sub a b) c := by
  have hfa := factors_pos a
  have hfb := factors_pos b
  cases h with
  | nullRight | cancel | fold =>
    apply falls_of_le <;> simp only [order, factors, sums, height, heft, overhang] <;> omega
  | nullLeft _ hc =>
    refine Falls.trans (falls_of_le ?_ ?_ ?_ ?_ ?_ ?_) (hc.falls_scale (.inl rfl) trivial hb) <;>
      simp only [order, factors, sums, height, heft, overhang] <;> omega
  | sub =>
    rw [asOperand_numeric, asOperand_numeric]
    exact falls_self _

omit [Scalar S] [NumericScalar S] in
/-- A transpose weighs more than what it is on. -/
theorem falls_transpose (a : Expr S) : Falls 0 (.transpose a) a := by
  have := Nat.le_mul_self (a.heft + 1)
  apply falls_of_le <;> simp only [order, factors, sums, height, heft, overhang] <;> omega

omit [Scalar S] [NumericScalar S] in
theorem Transposition.falls (h : Transposition a c) : Falls 0 (.transpose a) c := by
  cases h with
  | turnBack => exact (falls_transpose _).trans (falls_transpose c)
  | transpose => exact falls_self _
  | null | trace | scalar => exact falls_transpose _

omit [Scalar S] [NumericScalar S] in
theorem Tracing.falls (h : Tracing a c) : Falls 0 (.trace a) c := by
  cases h with
  | trace => exact falls_self _
  | null => apply falls_of_le <;> simp [order, factors, sums, height, heft, overhang]
  | scalar h =>
    obtain ⟨-, hf⟩ := order_factors_of_isScalar h
    apply falls_of_le <;> simp only [order, factors, sums, height, heft, overhang] <;> omega

end Constructors

/-! ## Congruent expressions -/

section Congruent

variable [Scalar S] [CongruentScalar S]

theorem Congruent.falls (h : a.Congruent b) : Falls 0 a b := by
  induction h with
  | var | scalarVar | null => exact falls_self _
  | literal => constructor <;> simp
  | differential _ ih => exact ih.differential
  | add _ _ iha ihb => exact iha.add ihb
  | sub _ _ iha ihb => exact iha.sub ihb
  | scale _ _ iha ihb => exact iha.scale ihb
  | matMul _ _ iha ihb => exact iha.matMul ihb
  | trace _ ih => exact ih.trace
  | transpose _ ih => exact ih.transpose

end Congruent

/-! ## One lemma for each kind of rule -/

section Shapes

theorem falls_rotate (ha : 0 < a.order) (h : a.order + b.order ≤ 1) :
    Falls 1 (.trace (.matMul a b)) (.trace (.matMul b a)) := by
  have hoa : a.order = 1 := by omega
  have hob : b.order = 0 := by omega
  have := factors_pos b
  constructor <;> simp only [order, factors, sums, height, heft, overhang, hoa, hob, Nat.one_mul,
    Nat.zero_mul] <;> omega

/-- Over a sum with a differential a trace adds to the height; over another one it is heavier. -/
theorem falls_trace_add (a b : Expr S) :
    Falls 1 (.trace (.add a b)) (.add (.trace a) (.trace b)) := by
  constructor <;> simp only [order, factors, sums, height, heft, overhang] <;> omega

theorem falls_trace_sub (a b : Expr S) :
    Falls 1 (.trace (.sub a b)) (.sub (.trace a) (.trace b)) := by
  constructor <;> simp only [order, factors, sums, height, heft, overhang] <;> omega

theorem falls_turn (hb : 0 < b.order) (h : a.order + b.order ≤ 1) :
    Falls 1 (.trace (.matMul a (.transpose b))) (.trace (.matMul (.transpose a) b)) := by
  have hoa : a.order = 0 := by omega
  obtain ⟨hs, hh⟩ := sums_height_of_order hoa
  constructor <;> simp only [order, factors, sums, height, heft, overhang, hoa, hs, hh] <;> omega

theorem falls_trace_transpose (a : Expr S) : Falls 1 (.trace (.transpose a)) (.trace a) := by
  have := Nat.le_mul_self (a.heft + 1)
  constructor <;> simp only [order, factors, sums, height, heft, overhang] <;> omega

theorem falls_add_matMul (hab : 0 < max a.order b.order) (h : max a.order b.order + c.order ≤ 1) :
    Falls 1 (.matMul (.add a b) c) (.add (.matMul a c) (.matMul b c)) := by
  have hmax : max a.order b.order = 1 := by omega
  have hoc : c.order = 0 := by omega
  obtain ⟨hs, hh⟩ := sums_height_of_order hoc
  have := factors_pos c
  constructor <;> simp only [order, factors, sums, height, heft, overhang, hmax, hoc, hs, hh,
    Nat.add_zero, Nat.mul_add] <;> omega

theorem falls_sub_matMul (hab : 0 < max a.order b.order) (h : max a.order b.order + c.order ≤ 1) :
    Falls 1 (.matMul (.sub a b) c) (.sub (.matMul a c) (.matMul b c)) := by
  obtain ⟨ho, hf, hs, hd⟩ := falls_add_matMul hab h
  exact ⟨ho, hf, hs, hd⟩

theorem falls_matMul_add (hab : 0 < max a.order b.order) (h : c.order + max a.order b.order ≤ 1) :
    Falls 1 (.matMul c (.add a b)) (.add (.matMul c a) (.matMul c b)) := by
  have hmax : max a.order b.order = 1 := by omega
  have hoc : c.order = 0 := by omega
  obtain ⟨hs, hh⟩ := sums_height_of_order hoc
  have := factors_pos c
  constructor <;> simp only [order, factors, sums, height, heft, overhang, hmax, hoc, hs, hh,
    Nat.zero_add, Nat.mul_add] <;> omega

theorem falls_matMul_sub (hab : 0 < max a.order b.order) (h : c.order + max a.order b.order ≤ 1) :
    Falls 1 (.matMul c (.sub a b)) (.sub (.matMul c a) (.matMul c b)) := by
  obtain ⟨ho, hf, hs, hd⟩ := falls_matMul_add hab h
  exact ⟨ho, hf, hs, hd⟩

theorem falls_associate (a b c : Expr S) :
    Falls 1 (.matMul a (.matMul b c)) (.matMul (.matMul a b) c) := by
  have := factors_pos c
  constructor <;> simp only [order, factors, sums, height, heft, overhang, Nat.mul_add,
    Nat.add_mul] <;> omega

/-- A square is heavier than those of the parts and the parts themselves. -/
theorem add_sq_le {x y n : Nat} (h : x + y + 2 ≤ n) :
    (x + 1) * (x + 1) + (y + 1) * (y + 1) + (x + y + 2) ≤ n * n := by
  have hle : (x + y + 2) * (x + y + 2) ≤ n * n := Nat.mul_le_mul h h
  nlinarith [Nat.zero_le (x * y)]

theorem falls_transpose_add (a b : Expr S) :
    Falls 1 (.transpose (.add a b)) (.add (.transpose a) (.transpose b)) := by
  have := heft_pos a
  have := add_sq_le (x := a.heft) (y := b.heft) (n := a.heft + b.heft + 2 + 1) (by omega)
  constructor <;> simp only [order, factors, sums, height, heft, overhang] <;> omega

theorem falls_transpose_sub (a b : Expr S) :
    Falls 1 (.transpose (.sub a b)) (.sub (.transpose a) (.transpose b)) := by
  obtain ⟨ho, hf, hs, hd⟩ := falls_transpose_add a b
  exact ⟨ho, hf, hs, hd⟩

theorem falls_transpose_matMul (h : a.order + b.order ≤ 1) :
    Falls 1 (.transpose (.matMul a b)) (.matMul (.transpose b) (.transpose a)) := by
  have hle : b.order * a.factors ≤ 1 * a.heft :=
    Nat.mul_le_mul (by omega) (factors_le_heft a)
  have := add_sq_le (x := a.heft) (y := b.heft) (n := a.heft + b.heft + 1 + a.order * b.factors + 1)
    (by omega)
  have := factors_pos a
  constructor <;> simp only [order, factors, sums, height, heft, overhang] <;> omega

theorem falls_transpose_scale (hs : s.isScalar = true) (a : Expr S) :
    Falls 1 (.transpose (.scale s a)) (.scale s (.transpose a)) := by
  obtain ⟨hos, hfs⟩ := order_factors_of_isScalar hs
  obtain ⟨hss, hhs⟩ := sums_height_of_order hos
  have := heft_pos s
  have := add_sq_le (x := s.heft) (y := a.heft) (n := s.heft + a.heft + 1 + 1) (by omega)
  constructor <;> simp only [order, factors, sums, height, heft, overhang] <;> omega

theorem falls_trace_scale (hs : s.isScalar = true) (a : Expr S) :
    Falls 1 (.trace (.scale s a)) (.scale s (.trace a)) := by
  obtain ⟨hos, hfs⟩ := order_factors_of_isScalar hs
  obtain ⟨hss, hhs⟩ := sums_height_of_order hos
  constructor <;> simp only [order, factors, sums, height, heft, overhang] <;> omega

/-- Unless a differential is in `a`, `t` is as high as the trace of `a*d`. -/
structure TermOf (a d t : Expr S) : Prop where
  order_eq : t.order = a.order + d.order
  plain : a.order = 0 →
    t.sums = d.sums ∧ t.height = d.height + 2 * (a.factors * d.sums) + 2 * d.sums

theorem termOf_trace (a d : Expr S) : TermOf a d (.trace (.matMul a d)) := by
  refine ⟨rfl, fun hoa => ?_⟩
  obtain ⟨hs, hh⟩ := sums_height_of_order hoa
  simp only [sums, height, hs, hh]
  omega

theorem TermOf.scale {d t : Expr S} (h : TermOf a d t) (hs : s.isScalar = true) :
    TermOf (.scale s a) d (.scale s t) := by
  obtain ⟨hos, hfs⟩ := order_factors_of_isScalar hs
  obtain ⟨hss, hhs⟩ := sums_height_of_order hos
  have ho := h.order_eq
  constructor <;> simp only [order, sums, height, factors, hfs, Nat.max_eq_right (factors_pos a)]
  · omega
  · intro hoa
    obtain ⟨hst, hht⟩ := h.plain (by omega)
    omega

/-- Joining terms leaves one differential where there were two. -/
theorem falls_collect_add {d t u : Expr S} (hd : 0 < d.order) (ht : TermOf a d t)
    (hu : TermOf b d u) (h : max t.order u.order ≤ 1) :
    Falls 1 (.add t u) (.trace (.matMul (.add a b) d)) := by
  have hot := ht.order_eq
  have hou := hu.order_eq
  have hoa : a.order = 0 := by omega
  have hob : b.order = 0 := by omega
  obtain ⟨hst, hht⟩ := ht.plain hoa
  obtain ⟨hsu, hhu⟩ := hu.plain hob
  obtain ⟨hsa, hha⟩ := sums_height_of_order hoa
  obtain ⟨hsb, hhb⟩ := sums_height_of_order hob
  have hft := factors_pos t
  have hmul : max a.factors b.factors * d.sums ≤ a.factors * d.sums + b.factors * d.sums := by
    rw [← Nat.add_mul]
    exact Nat.mul_le_mul_right _ (by omega)
  refine ⟨?_, ?_, ?_, .inl ?_⟩ <;> simp only [order, factors, sums, height, hoa, hob, hst, hsu, hht,
    hhu, hsa, hsb, hha, hhb, Nat.max_self, Nat.add_zero, Nat.mul_zero] <;> omega

theorem falls_collect_sub {d t u : Expr S} (hd : 0 < d.order) (ht : TermOf a d t)
    (hu : TermOf b d u) (h : max t.order u.order ≤ 1) :
    Falls 1 (.sub t u) (.trace (.matMul (.sub a b) d)) := by
  obtain ⟨ho, hf, hs, h⟩ := falls_collect_add hd ht hu h
  exact ⟨ho, hf, hs, h⟩

end Shapes

/-! ## What a rule makes of an expression -/

theorem Filled.falls [Scalar S] [NumericScalar S] {a b : Expr S} (h : Filled Neat a b) :
    Falls 0 a b := by
  induction h with
  | kept => exact falls_self _
  | add hl _ iha ihb => exact (iha.add ihb).trans ((plus_add _ _).falls hl.neat)
  | sub _ hr iha ihb => exact (iha.sub ihb).trans ((minus_sub _ _).falls hr.neat)
  | scale hk hneat hr ihb =>
    exact ((falls_self _).scale ihb).trans
      ((product_times _ _).falls_scale (.inl hk) hneat hr.neat)
  | matMul hl hr iha ihb => exact (iha.matMul ihb).trans ((product_times _ _).falls hl.neat hr.neat)
  | trace _ iha => exact iha.trace.trans (tracing_traced _).falls
  | transpose _ iha => exact iha.transpose.trans (transposition_transposed _).falls

end Expr

namespace Stage

open TraceCalculus.Expr

variable {stage : Stage} {rule : Rule S} {σ : Assignment S}

theorem falls_replacement (hr : rule ∈ stage.rules) (hf : rule.pattern.Faces σ)
    (ho : (rule.pattern.instantiate σ).order ≤ 1) :
    (rule.pattern.instantiate σ).Falls 1 (rule.replacement.instantiate σ) := by
  revert hf ho
  refine forall_rules (P := fun rule => rule.pattern.Faces σ →
    (rule.pattern.instantiate σ).order ≤ 1 →
    (rule.pattern.instantiate σ).Falls 1 (rule.replacement.instantiate σ)) ?_ ?_ ?_ hr <;>
    simp only [isolating, normalizing, collecting, List.forall_mem_cons, Expr.instantiate,
      Expr.Faces, List.not_mem_nil, false_imp_iff, implies_true, and_true, true_and]
  · exact ⟨fun hd ho => falls_rotate (order_pos hd) ho, fun _ _ => falls_trace_add _ _,
      fun _ _ => falls_trace_sub _ _, fun hd ho => falls_turn (order_pos hd) ho,
      fun _ _ => falls_trace_transpose _, fun hd ho => falls_add_matMul (order_pos hd) ho,
      fun hd ho => falls_matMul_add (order_pos hd) ho,
      fun hd ho => falls_sub_matMul (order_pos hd) ho,
      fun hd ho => falls_matMul_sub (order_pos hd) ho, fun _ _ => (falls_associate _ _ _).trace,
      fun _ ho => falls_transpose_matMul ho, fun _ _ => falls_transpose_add _ _,
      fun _ _ => falls_transpose_sub _ _, fun hs _ => falls_transpose_scale hs _,
      fun hs _ => falls_trace_scale hs _⟩
  · exact ⟨fun _ _ => falls_associate _ _ _, fun _ ho => falls_transpose_matMul ho,
      fun _ _ => falls_transpose_add _ _, fun _ _ => falls_transpose_sub _ _,
      fun _ _ => falls_trace_transpose _⟩
  · exact ⟨fun h ho => falls_collect_add (order_pos h.1) (termOf_trace _ _) (termOf_trace _ _) ho,
      fun h ho => falls_collect_sub (order_pos h.1) (termOf_trace _ _) (termOf_trace _ _) ho,
      fun h ho => falls_collect_add (order_pos h.2) ((termOf_trace _ _).scale h.1.1)
        (termOf_trace _ _) ho,
      fun h ho => falls_collect_add (order_pos h.1) (termOf_trace _ _)
        ((termOf_trace _ _).scale h.2.1) ho,
      fun h ho => falls_collect_add (order_pos h.1.2) ((termOf_trace _ _).scale h.1.1)
        ((termOf_trace _ _).scale h.2.1) ho,
      fun h ho => falls_collect_sub (order_pos h.2) ((termOf_trace _ _).scale h.1.1)
        (termOf_trace _ _) ho,
      fun h ho => falls_collect_sub (order_pos h.1) (termOf_trace _ _)
        ((termOf_trace _ _).scale h.2.1) ho,
      fun h ho => falls_collect_sub (order_pos h.1.2) ((termOf_trace _ _).scale h.1.1)
        ((termOf_trace _ _).scale h.2.1) ho,
      fun _ _ => falls_trace_add _ _, fun _ _ => falls_trace_sub _ _⟩

variable [Scalar S] [NumericScalar S] {e : Expr S} {m : RuleMatch S}

/-- A rule that is applied to an expression of first order leads below it. -/
theorem falls_output (he : e.Neat) (ho : e.order ≤ 1) (hm : m ∈ ruleMatches e stage.rules) :
    e.Falls 1 m.output := by
  obtain ⟨hr, hmatch⟩ := mem_ruleMatches hm
  have hf := faces_of_matchAgainst hmatch
  have hcong := congruent_of_matchAgainst hmatch
  have hrule := falls_replacement hr hf (hcong.symm.falls.order_le.trans ho)
  exact (hcong.symm.falls.trans hrule).trans (filled_of_mem_ruleMatches he hm).falls

end Stage

end TraceCalculus
