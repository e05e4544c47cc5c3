import TraceCalculus.Proofs.ReadableForm

/-! # The first stage makes a differential readable

What the first stage makes of a combination of traces is readable, or the zero element
(`Canonical.yields_isolate`). The loops of a run also end where an expression comes back, with
whatever it is then, so it has to be shown that they do not end too early:

* Settling the operands of a product may leave a multiple of a product to be settled, which is no
  product itself and so has not been seen.
* Rules that take a sum out of a product or move a transpose down change the kind of the node.
* Rules in a trace rotate a product and associate it to the left. They decrease `remoteness`, and settling
  the operands does not change it.

Then only a node that no rule matches is left. Sums have come out of the products by then
(`Expr.Distributed`), and in a trace the differential is on the right.
-/

set_option autoImplicit false

namespace TraceCalculus

namespace Expr

variable {S : Type} {X : String}

/-- Sums, differences and multiples of products with one differential. No sum is one of equal
terms. -/
def Distributed [Scalar S] (X : String) : Expr S → Prop
  | .add a b => a.Distributed X ∧ b.Distributed X ∧ a ≠ b
  | .sub a b => a.Distributed X ∧ b.Distributed X
  | .scale k b => k.IsCoefficient ∧ b.Distributed X ∧ b.Solid
  | e => ∃ sides turned, e.Monomial X sides turned

/-- A product with a factor that is plain and one that is distributed. -/
def Joint [Scalar S] (X : String) : Expr S → Prop
  | .matMul a b =>
    (a.Plain ∧ a.Solid) ∧ (b.Distributed X ∧ b.Solid) ∨
      (a.Distributed X ∧ a.Solid) ∧ (b.Plain ∧ b.Solid)
  | _ => False

/-- The transpose of something that is distributed. -/
def Turned [Scalar S] (X : String) : Expr S → Prop
  | .transpose a => a.Distributed X ∧ a ≠ .transpose (.differential (.var X))
  | _ => False

theorem Distributed.linear [Scalar S] {e : Expr S} (h : e.Distributed X) : e.Linear X := by
  induction e with
  | add a b iha ihb => exact ⟨iha h.1, ihb h.2.1⟩
  | sub a b iha ihb => exact ⟨iha h.1, ihb h.2⟩
  | scale k b _ ihb => exact ⟨h.1.1, ihb h.2.1⟩
  | _ =>
    obtain ⟨sides, turned, hm⟩ := h
    exact hm.linear

theorem Joint.linear [Scalar S] {e : Expr S} (h : e.Joint X) : e.Linear X := by
  cases e <;> try cases h
  case matMul.inl h => exact .inl ⟨h.1.1, h.2.1.linear⟩
  case matMul.inr h => exact .inr ⟨h.1.1.linear, h.2.1⟩

theorem Turned.linear [Scalar S] {e : Expr S} (h : e.Turned X) : e.Linear X := by
  cases e <;> try cases h
  case transpose.intro h _ => exact h.linear

theorem Joint.kind_eq [Scalar S] {e : Expr S} (h : e.Joint X) : e.kind = .matMul := by
  cases e <;> first | rfl | cases h

theorem Turned.kind_eq [Scalar S] {e : Expr S} (h : e.Turned X) : e.kind = .transpose := by
  cases e <;> first | rfl | cases h

theorem Multiple.joint_or_scale [Scalar S] {e : Expr S} (h : e.Multiple (Joint X)) :
    e.Joint X ∨ e.kind = .scale ∧ e.Linear X := by
  cases e with
  | scale k b => exact .inr ⟨rfl, h.1.1, h.2.linear⟩
  | _ => exact .inl h

theorem Monomial.distributed [Scalar S] {sides : List Side} {turned : Bool} {e : Expr S}
    (h : e.Monomial X sides turned) : e.Distributed X := by
  cases e with
  | add | sub | scale => rcases sides with _ | ⟨_ | _, _⟩ <;> cases turned <;> cases h
  | _ => exact ⟨sides, turned, h⟩

theorem distributed_iff_multiple [Scalar S] {e : Expr S} :
    e.Multiple (fun x => x.Distributed X ∧ x.Solid) ↔ e.Distributed X := by
  cases e with
  | scale k b => exact Iff.rfl
  | _ =>
    refine ⟨And.left, fun h => ⟨h, ?_⟩⟩
    have := h.linear
    trivial

theorem Multiple.distributed [Scalar S] {sides : List Side} {turned : Bool} {e : Expr S}
    (h : e.Multiple (Monomial X sides turned)) : e.Distributed X :=
  distributed_iff_multiple.1 (h.imp fun _ hx => ⟨hx.distributed, hx.solid⟩)

/-! ## What is built from distributed operands -/

variable [ExactScalar S] {a b p k : Expr S}

theorem distributed_scalar_times (hk : k.isScalar = true) (h : OrNull (Distributed X) b) :
    OrNull (Distributed X) (k * b) :=
  (scalar_times_multiple (Homogeneous.allSolid (Distributed X)) hk
    (h.imp distributed_iff_multiple.2)).imp distributed_iff_multiple.1

theorem distributed_plus (ha : OrNull (Distributed X) a) (hb : OrNull (Distributed X) b) :
    OrNull (Distributed X) (a + b) := by
  change OrNull (Distributed X) (Expr.plus a b)
  unfold Expr.plus
  split
  case h_1 => exact hb
  case h_2 => exact ha
  case h_3 =>
    rcases ha with ha | ha
    · cases ha
    · cases ha.linear
  case h_4 na nb _ =>
    have ha := ha.resolve_left na
    have hb := hb.resolve_left nb
    split
    case isTrue => exact distributed_scalar_times (k := .literal Scalar.two) rfl (.inr ha)
    case isFalse hne =>
      rw [asOperand_exact, asOperand_exact]
      exact .inr ⟨ha, hb, by simpa using hne⟩

theorem distributed_minus (ha : OrNull (Distributed X) a) (hb : OrNull (Distributed X) b) :
    OrNull (Distributed X) (a - b) := by
  rcases ha with rfl | ha
  · rcases hb with rfl | hb
    · exact .inl rfl
    · have heq : null - b = .literal (-1) * b := by
        cases b <;> rfl
      rw [heq]
      exact distributed_scalar_times rfl (.inr hb)
  rcases hb with rfl | hb
  · have heq : a - null = a := by cases a <;> rfl
    rw [heq]
    exact .inr ha
  rcases homogeneous_linear.minus_eq ha.linear hb.linear with heq | heq
  · exact .inl heq
  · rw [heq]
    exact .inr ⟨ha, hb⟩

/-- The product of something plain and something distributed, from either side. -/
theorem joint_times (h : OrNull Plain a ∧ OrNull (Distributed X) b ∨
      OrNull (Distributed X) a ∧ OrNull Plain b) : OrNull (Multiple (Joint X)) (a * b) := by
  have hsolid := Homogeneous.allSolid (Distributed (S := S) X)
  have hscaled : ∀ {e : Expr S}, e.Distributed X → e.Scaled fun x => x.Distributed X ∧ x.Solid :=
    fun he => (distributed_iff_multiple.2 he).scaled hsolid
  have hplain := Homogeneous.allSolid (Plain (S := S))
  by_cases ha : a = .null
  · rw [ha]
    exact .inl (null_times b)
  by_cases hb : b = .null
  · rw [hb]
    exact .inl (times_null a)
  rcases h with ⟨ha', hb'⟩ | ⟨ha', hb'⟩
  · have ha' := ha'.resolve_left ha
    have hb' := hb'.resolve_left hb
    refine .inr (((product_times a b).of_scaled hplain hsolid (homogeneous_plain.scaled_iff.2 ha')
      (hscaled hb')).imp fun e he => ?_)
    cases e <;> try cases he
    case matMul.intro ha hb => exact .inl ⟨ha, hb⟩
  · have ha' := ha'.resolve_left ha
    have hb' := hb'.resolve_left hb
    refine .inr (((product_times a b).of_scaled hsolid hplain (hscaled ha')
      (homogeneous_plain.scaled_iff.2 hb')).imp fun e he => ?_)
    cases e <;> try cases he
    case matMul.intro ha hb => exact .inr ⟨ha, hb⟩

omit [ExactScalar S] in
/-- The only transpose that is distributed is that of the differential. -/
theorem Distributed.transposed_cases [Scalar S] (h : a.Distributed X) :
    a = .transpose (.differential (.var X)) ∧ a.transposed = .differential (.var X) ∨
      a ≠ .transpose (.differential (.var X)) ∧ a.transposed = .transpose a := by
  cases a with
  | transpose b =>
    obtain ⟨sides, turned, hm⟩ := h
    rcases sides with _ | ⟨_ | _, _⟩ <;> cases turned <;> try cases hm
    exact .inl ⟨rfl, rfl⟩
  | var | scalarVar | literal | null | trace => cases h.linear
  | _ =>
    refine .inr ⟨nofun, ?_⟩
    unfold transposed
    exact if_neg (by simp [homogeneous_linear.isScalar_eq h.linear])

omit [ExactScalar S] in
theorem distributed_transposed [Scalar S] (h : OrNull (Distributed X) a) :
    OrNull (fun e => e.Distributed X ∨ e.Turned X) a.transposed := by
  rcases h with rfl | h
  · exact .inl rfl
  · rcases h.transposed_cases with ⟨-, heq⟩ | ⟨hne, heq⟩
    · rw [heq]
      exact .inr (.inl ⟨[], false, rfl⟩)
    · rw [heq]
      exact .inr (.inr ⟨h, hne⟩)

/-! ## Terms that differ stay apart

Twice a product may be the product again, if two is one. So a rule that takes a sum apart is only
known to change the kind of the node if the terms do not become equal on the way. -/

omit [ExactScalar S] in
theorem Distributed.solid_or_scale [Scalar S] (h : a.Distributed X) :
    a.Solid ∨ ∃ k b, a = .scale k b ∧ k.IsCoefficient ∧ b.Distributed X ∧ b.Solid := by
  cases a with
  | scale k b => exact .inr ⟨k, b, rfl, h⟩
  | _ => exact .inl (homogeneous_linear.solid h.linear rfl)

theorem Distributed.times_left (ha : a.Distributed X) (hp : p.Plain) (hs : p.Solid) :
    (a * p).Linear X ∧ ∀ b : Expr S, b.Distributed X → a * p = b * p → a = b := by
  have key : ∀ {e : Expr S}, e.Distributed X → e * p = .matMul e p ∨
      ∃ k b, e = .scale k b ∧ k.isScalar = true ∧ b.Linear X ∧ e * p = .scale k (.matMul b p) := by
    intro e he
    rcases he.solid_or_scale with hsol | ⟨k, b, rfl, hk, hb, hbs⟩
    · exact .inl ((product_times e p).of_solid hsol hs)
    · exact .inr ⟨k, b, rfl, hk.1, hb.linear, (product_times _ p).of_scale_solid hk hbs hs⟩
  rcases key ha with heq | ⟨k, a', rfl, hk, ha', heq⟩
  · rw [heq]
    refine ⟨.inr ⟨ha.linear, hp⟩, fun b hb h => ?_⟩
    rcases key hb with heq' | ⟨l, b', rfl, -, -, heq'⟩ <;> rw [heq'] at h <;> cases h
    rfl
  · rw [heq]
    refine ⟨⟨hk, .inr ⟨ha', hp⟩⟩, fun b hb h => ?_⟩
    rcases key hb with heq' | ⟨l, b', rfl, -, -, heq'⟩ <;> rw [heq'] at h <;> cases h
    rfl

theorem Distributed.times_right (ha : a.Distributed X) (hp : p.Plain) (hs : p.Solid) :
    (p * a).Linear X ∧ ∀ b : Expr S, b.Distributed X → p * a = p * b → a = b := by
  have key : ∀ {e : Expr S}, e.Distributed X → p * e = .matMul p e ∨
      ∃ k b, e = .scale k b ∧ k.isScalar = true ∧ b.Linear X ∧ p * e = .scale k (.matMul p b) := by
    intro e he
    rcases he.solid_or_scale with hsol | ⟨k, b, rfl, hk, hb, hbs⟩
    · exact .inl ((product_times p e).of_solid hs hsol)
    · exact .inr ⟨k, b, rfl, hk.1, hb.linear, (product_times p _).of_solid_scale hs hk hbs⟩
  rcases key ha with heq | ⟨k, a', rfl, hk, ha', heq⟩
  · rw [heq]
    refine ⟨.inl ⟨hp, ha.linear⟩, fun b hb h => ?_⟩
    rcases key hb with heq' | ⟨l, b', rfl, -, -, heq'⟩ <;> rw [heq'] at h <;> cases h
    rfl
  · rw [heq]
    refine ⟨⟨hk, .inl ⟨hp, ha'⟩⟩, fun b hb h => ?_⟩
    rcases key hb with heq' | ⟨l, b', rfl, -, -, heq'⟩ <;> rw [heq'] at h <;> cases h
    rfl

omit [ExactScalar S] in
theorem Distributed.transposed_linear [Scalar S] (ha : a.Distributed X) :
    a.transposed.Linear X ∧ a.transposed.Solid := by
  rcases ha.transposed_cases with ⟨-, heq⟩ | ⟨-, heq⟩ <;> rw [heq]
  · exact ⟨rfl, trivial⟩
  · exact ⟨ha.linear, trivial⟩

omit [ExactScalar S] in
theorem Distributed.eq_of_transposed [Scalar S] (ha : a.Distributed X) (hb : b.Distributed X)
    (h : a.transposed = b.transposed) : a = b := by
  rcases ha.transposed_cases with ⟨ha', heq⟩ | ⟨-, heq⟩ <;>
    rcases hb.transposed_cases with ⟨hb', heq'⟩ | ⟨-, heq'⟩ <;> rw [heq, heq'] at h <;> cases h
  · exact ha'.trans hb'.symm
  · rfl

/-! ## Steps at a matrix -/

variable {e o : Expr S}

/-- Nothing is left to do for what is distributed. -/
theorem Distributed.not_step (h : e.Distributed X) : ¬ IsolatingStep e o := by
  intro hs
  cases e with
  | add | sub | scale => cases hs
  | _ =>
    obtain ⟨sides, turned, hm⟩ := h
    exact Canonical.not_isolatingStep_of_monomial (Multiple.of_solid (allSolid_monomial _ _) hm) hs

theorem Joint.distributed_or_step (h : e.Joint X) : e.Distributed X ∨ ∃ o, IsolatingStep e o := by
  cases e <;> try cases h
  case matMul.inl a b h =>
    obtain ⟨ha, hb, hs⟩ := h
    have hd := hb.linear.hasDifferential_eq
    cases b with
    | add => exact .inr ⟨_, .matMulAdd hd⟩
    | sub => exact .inr ⟨_, .matMulSub hd⟩
    | scale => cases hs
    | _ =>
      obtain ⟨sides, turned, hm⟩ := hb
      exact .inl ⟨.right :: sides, turned, ha.1, ha.2, hm⟩
  case matMul.inr a b h =>
    obtain ⟨⟨ha, hs⟩, hb⟩ := h
    have hd := ha.linear.hasDifferential_eq
    cases a with
    | add => exact .inr ⟨_, .addMatMul hd⟩
    | sub => exact .inr ⟨_, .subMatMul hd⟩
    | scale => cases hs
    | _ =>
      obtain ⟨sides, turned, hm⟩ := ha
      exact .inl ⟨.left :: sides, turned, hm, hb⟩

theorem Turned.distributed_or_step (h : e.Turned X) : e.Distributed X ∨ ∃ o, IsolatingStep e o := by
  cases e <;> try cases h
  case transpose.intro a h hne =>
    have hd := h.linear.hasDifferential_eq
    cases a with
    | differential inner =>
      obtain rfl : inner = .var X := h.linear
      exact .inl ⟨[], true, rfl⟩
    | matMul => exact .inr ⟨_, .transposeMatMul hd⟩
    | add => exact .inr ⟨_, .transposeAdd hd⟩
    | sub => exact .inr ⟨_, .transposeSub hd⟩
    | scale => exact .inr ⟨_, .transposeScale h.1.1⟩
    | transpose =>
      rcases h.transposed_cases with ⟨heq, -⟩ | ⟨-, heq⟩
      · exact absurd heq hne
      · cases heq
    | _ => cases h.linear

/-- A sum or difference comes out of a product. -/
theorem Joint.kind_of_step (h : e.Joint X) (hs : IsolatingStep e o) :
    ¬ (o.kind = .matMul ∨ o.kind = .transpose) := by
  have hadd : o.kind = .add → ¬ (o.kind = .matMul ∨ o.kind = .transpose) := by
    intro hk
    rw [hk]
    nofun
  have hsub : o.kind = .null ∨ o.kind = .sub → ¬ (o.kind = .matMul ∨ o.kind = .transpose) := by
    rintro (hk | hk) <;> rw [hk] <;> nofun
  cases hs with
  | addMatMul hd =>
    rcases h with ⟨h, -⟩ | ⟨⟨⟨ha, hb, hne⟩, -⟩, hp, hps⟩
    · exact absurd hd h.1.not_hasDifferential
    · obtain ⟨hla, hinj⟩ := ha.times_left hp hps
      obtain ⟨hlb, -⟩ := hb.times_left hp hps
      exact hadd (homogeneous_linear.kind_plus hla hlb fun heq => hne (hinj _ hb heq))
  | matMulAdd hd =>
    rcases h with ⟨⟨hp, hps⟩, ⟨ha, hb, hne⟩, -⟩ | ⟨-, h⟩
    · obtain ⟨hla, hinj⟩ := ha.times_right hp hps
      obtain ⟨hlb, -⟩ := hb.times_right hp hps
      exact hadd (homogeneous_linear.kind_plus hla hlb fun heq => hne (hinj _ hb heq))
    · exact absurd hd h.1.not_hasDifferential
  | subMatMul hd =>
    rcases h with ⟨h, -⟩ | ⟨⟨⟨ha, hb⟩, -⟩, hp, hps⟩
    · exact absurd hd h.1.not_hasDifferential
    · exact hsub (homogeneous_linear.kind_minus (ha.times_left hp hps).1 (hb.times_left hp hps).1)
  | matMulSub hd =>
    rcases h with ⟨⟨hp, hps⟩, ⟨ha, hb⟩, -⟩ | ⟨-, h⟩
    · exact hsub (homogeneous_linear.kind_minus (ha.times_right hp hps).1 (hb.times_right hp hps).1)
    · exact absurd hd h.1.not_hasDifferential
  | _ => cases h

/-- A transpose moves down. -/
theorem Turned.kind_of_step (h : e.Turned X) (hs : IsolatingStep e o) : o.kind ≠ .transpose := by
  cases hs with
  | @transposeMatMul a b hd =>
    have hkind : (b.transposed * a.transposed).kind = .null ∨
        (b.transposed * a.transposed).kind = .matMul ∨
        (b.transposed * a.transposed).kind = .scale := by
      rcases h.1.linear with ⟨ha, hb⟩ | ⟨ha, hb⟩
      · exact homogeneous_linear.kind_times homogeneous_plain
          (linear_transposed (X := X) (.inr hb)) (plain_transposed (.inr ha))
      · exact homogeneous_plain.kind_times homogeneous_linear (plain_transposed (.inr hb))
          (linear_transposed (X := X) (.inr ha))
    rcases hkind with heq | heq | heq <;> rw [heq] <;> nofun
  | transposeAdd =>
    obtain ⟨ha, hb, hne⟩ := h.1
    rw [homogeneous_linear.kind_plus ha.transposed_linear.1 hb.transposed_linear.1 fun heq =>
      hne (ha.eq_of_transposed hb heq)]
    nofun
  | transposeSub =>
    obtain ⟨ha, hb⟩ := h.1
    rcases homogeneous_linear.kind_minus ha.transposed_linear.1 hb.transposed_linear.1 with
      heq | heq <;> rw [heq] <;> nofun
  | transposeScale =>
    obtain ⟨hk, ha, -⟩ := h.1
    rw [(product_times _ _).of_coefficient hk ha.transposed_linear.2]
    nofun
  | _ => cases h

/-! ## Steps at a trace -/

/-- How the top two products lie. -/
def slant : List Side → Nat
  | .left :: .left :: _ => 3
  | .right :: .left :: _ => 2
  | .left :: _ => 1
  | _ => 0

/-- A measure for the place of the differential in a trace. Rotation moves it from the left to the
right, association shortens the way to it or leaves a rotation to do. -/
def remoteness (sides : List Side) (turned : Bool) : Nat :=
  2 * (4 * sides.length + slant sides) + turned.toNat

theorem remoteness_rotate (sides : List Side) (turned : Bool) :
    remoteness (.right :: sides) turned < remoteness (.left :: sides) turned := by
  rcases sides with _ | ⟨_ | _, _⟩ <;> simp only [remoteness, slant, List.length] <;> omega

theorem remoteness_associate_left (sides : List Side) (turned : Bool) :
    remoteness (.left :: .right :: sides) turned < remoteness (.right :: .left :: sides) turned := by
  simp only [remoteness, slant, List.length]
  omega

theorem remoteness_associate_right (sides : List Side) (turned : Bool) :
    remoteness (.right :: sides) turned < remoteness (.right :: .right :: sides) turned := by
  rcases sides with _ | ⟨_ | _, _⟩ <;> simp only [remoteness, slant, List.length] <;> omega

theorem Distributed.readable_or_step (h : a.Distributed X) :
    (trace a).Readable X ∨ ∃ o, IsolatingStep (trace a) o := by
  have hd := h.linear.hasDifferential_eq
  cases a with
  | add => exact .inr ⟨_, .traceAdd hd⟩
  | sub => exact .inr ⟨_, .traceSub hd⟩
  | scale => exact .inr ⟨_, .traceScale h.1.1⟩
  | transpose => exact .inr ⟨_, .traceTranspose h.linear.hasDifferential_eq⟩
  | differential inner => exact .inl (.inl h.linear)
  | matMul a b =>
    obtain ⟨sides, turned, hm⟩ := h
    rcases sides with _ | ⟨_ | _, sides⟩
    · cases turned <;> cases hm
    · exact .inr ⟨_, .rotate hm.1.linear.hasDifferential_eq⟩
    · have hd' := hm.2.2.linear.hasDifferential_eq
      have hl := hm.2.2.linear
      cases b with
      | differential inner => exact .inl (.inr ⟨hm.1, hm.2.1, hl⟩)
      | matMul => exact .inr ⟨_, .associate hd'⟩
      | transpose b => exact .inr ⟨_, .turn (Linear.hasDifferential_eq (X := X) hl)⟩
      | add | sub | scale =>
        rcases sides with _ | ⟨_ | _, _⟩ <;> cases turned <;> cases hm.2.2
      | _ => cases hl
  | _ => cases h.linear

/-- The trace of a multiple of a product that is nearer to the readable form. -/
def Nearer (X : String) (n : Nat) : Expr S → Prop
  | .trace a => ∃ sides turned, a.Multiple (Monomial X sides turned) ∧ remoteness sides turned < n
  | _ => False

theorem Nearer.mono {m n : Nat} (h : e.Nearer X m) (hmn : m ≤ n) : e.Nearer X n := by
  cases e <;> try cases h
  case trace.intro sides h =>
    obtain ⟨turned, hm, hlt⟩ := h
    exact ⟨sides, turned, hm, by omega⟩

omit [ExactScalar S] in
theorem Multiple.remoteness_eq [Scalar S] {sides sides' : List Side} {turned turned' : Bool}
    (h : a.Multiple (Monomial X sides turned)) (h' : a.Multiple (Monomial X sides' turned')) :
    remoteness sides turned = remoteness sides' turned' := by
  have heq : sides = sides' ∧ turned = turned' := by
    cases a with
    | scale k b => exact h.2.unique h'.2
    | _ => exact Monomial.unique h h'
  rw [heq.1, heq.2]

theorem not_nearer_self {sides : List Side} {turned : Bool}
    (h : a.Multiple (Monomial X sides turned)) : ¬ (trace a).Nearer X (remoteness sides turned) := by
  rintro ⟨sides', turned', h', hlt⟩
  rw [h.remoteness_eq h'] at hlt
  exact Nat.lt_irrefl _ hlt

theorem nearer_traced {sides : List Side} {turned : Bool} {n : Nat}
    (h : OrNull (Multiple (Monomial X sides turned)) a) (hlt : remoteness sides turned < n) :
    a.traced.kind ≠ .trace ∨ a.traced.Nearer X n := by
  rcases h with rfl | h
  · exact .inl nofun
  · have hl := h.distributed.linear
    rw [traced_eq_trace (homogeneous_linear.isNull_eq hl) (homogeneous_linear.isScalar_eq hl)]
    exact .inr ⟨sides, turned, h, hlt⟩

/-- A step at a trace changes the kind of the node, or the differential gets nearer to its place. -/
theorem Distributed.kind_or_nearer_of_step (h : a.Distributed X) (hs : IsolatingStep (trace a) o) :
    o.kind ≠ .trace ∨ ∃ sides turned, a.Monomial X sides turned ∧
      o.Nearer X (remoteness sides turned) := by
  have htraced : ∀ {x : Expr S}, x.Distributed X → x.traced = .trace x ∧ (trace x).Traced X :=
    fun hx => ⟨traced_eq_trace (homogeneous_linear.isNull_eq hx.linear)
      (homogeneous_linear.isScalar_eq hx.linear), hx.linear⟩
  cases hs with
  | @traceAdd a b =>
    obtain ⟨ha, hb, hne⟩ := h
    have hne' : trace a ≠ trace b := fun heq => hne (Expr.trace.inj heq)
    rw [(htraced ha).1, (htraced hb).1,
      homogeneous_traced.kind_plus (htraced ha).2 (htraced hb).2 hne']
    exact .inl nofun
  | @traceSub a b =>
    obtain ⟨ha, hb⟩ := h
    rw [(htraced ha).1, (htraced hb).1]
    rcases homogeneous_traced.kind_minus (htraced ha).2 (htraced hb).2 with heq | heq
    · rw [heq]
      exact .inl nofun
    · rw [heq]
      exact .inl nofun
  | @traceScale k a =>
    obtain ⟨hk, ha, -⟩ := h
    have hs : (trace a).Solid := trivial
    rw [(htraced ha).1, (product_times k _).of_coefficient hk hs]
    exact .inl nofun
  | traceTranspose =>
    obtain ⟨sides, turned, hm⟩ := h
    rcases sides with _ | ⟨_ | _, _⟩ <;> cases turned <;> try cases hm
    exact .inr ⟨[], true, rfl, [], false, rfl, by decide⟩
  | @rotate a b hd =>
    obtain ⟨sides, turned, hm⟩ := h
    rcases sides with _ | ⟨_ | _, sides⟩
    · cases turned <;> cases hm
    · have hba := monomial_times_right (.inr hm.2.1) (.inr (.of_solid (allSolid_monomial _ _) hm.1))
      exact (nearer_traced hba (remoteness_rotate _ _)).imp_right fun h => ⟨_, _, hm, h⟩
    · exact absurd hd hm.1.not_hasDifferential
  | @turn a b hd =>
    obtain ⟨sides, turned, hm⟩ := h
    rcases sides with _ | ⟨_ | _, sides⟩
    · cases turned <;> cases hm
    · exact absurd hd hm.2.1.not_hasDifferential
    · have hb := hm.2.2
      rcases sides with _ | ⟨_ | _, _⟩ <;> cases turned <;> try cases hb
      have hd : OrNull (Multiple (Monomial X [] false)) (differential (.var X) : Expr S) := .inr rfl
      have hab := monomial_times_right (plain_transposed (.inr hm.1)) hd
      have hlt : remoteness [.right] false < remoteness [.right] true := by decide
      exact (nearer_traced hab hlt).imp_right fun h => ⟨_, _, hm, h⟩
  | @associate a b c hd =>
    obtain ⟨sides, turned, hm⟩ := h
    rcases sides with _ | ⟨_ | _, sides⟩
    · cases turned <;> cases hm
    · exact absurd hd hm.2.1.not_hasDifferential
    · have hbc := hm.2.2
      rcases sides with _ | ⟨_ | _, sides⟩
      · cases turned <;> cases hbc
      · have hb := Multiple.of_solid (allSolid_monomial _ _) hbc.1
        have habc := monomial_times_left (monomial_times_right (.inr hm.1) (.inr hb))
          (.inr hbc.2.1)
        exact (nearer_traced habc (remoteness_associate_left _ _)).imp_right fun h => ⟨_, _, hm, h⟩
      · have hc := Multiple.of_solid (allSolid_monomial _ _) hbc.2.2
        have habc := monomial_times_right (plain_times (.inr hm.1) (.inr hbc.1)) (.inr hc)
        exact (nearer_traced habc (remoteness_associate_right _ _)).imp_right fun h => ⟨_, _, hm, h⟩

end Expr

namespace Canonical

open TraceCalculus.Expr

variable {S : Type} [ExactScalar S] {X : String} {e r : Expr S}

/-- What the first stage makes of an expression. -/
structure Isolated (X : String) (e r : Expr S) : Prop where
  retains : Retains X (fun _ _ => True) e r
  linear : e.Linear X → OrNull (Distributed X) r
  traced : e.Traced X → OrNull (Readable X) r

theorem places_all : Places fun _ _ => True := ⟨fun _ _ _ => trivial, fun _ _ _ _ => trivial⟩

/-! ## Operands -/

theorem retains_of_rebuilt_isolated (h : Rebuilt (Isolated X) e r) :
    Retains X (fun _ _ => True) e r :=
  retains_of_rebuilt places_all (h.mono fun _ _ h => h.retains)

/-- A node built again over operands that are distributed. -/
theorem rebuilt_linear (h : Rebuilt (Isolated X) e r) (he : e.Linear X) :
    e.kind = .matMul ∧ OrNull (Multiple (Joint X)) r ∨
      e.kind = .transpose ∧ OrNull (fun r => r.Distributed X ∨ r.Turned X) r ∨
      OrNull (Distributed X) r := by
  cases h with
  | var | scalarVar | literal | null | trace => cases he
  | differential ha =>
    obtain rfl := he
    rw [ha.retains.fixed trivial]
    exact .inr (.inr (.inr ⟨[], false, rfl⟩))
  | add ha hb => exact .inr (.inr (distributed_plus (ha.linear he.1) (hb.linear he.2)))
  | sub ha hb => exact .inr (.inr (distributed_minus (ha.linear he.1) (hb.linear he.2)))
  | scale ha hb =>
    exact .inr (.inr (distributed_scalar_times (ha.retains.scalar he.1) (hb.linear he.2)))
  | matMul ha hb =>
    refine .inl ⟨rfl, joint_times ?_⟩
    rcases he with ⟨ha', hb'⟩ | ⟨ha', hb'⟩
    · exact .inl ⟨ha.retains.plain ha', hb.linear hb'⟩
    · exact .inr ⟨ha.linear ha', hb.retains.plain hb'⟩
  | transpose ha => exact .inr (.inl ⟨rfl, distributed_transposed (ha.linear he)⟩)

theorem rebuilt_distributed (h : Rebuilt (Isolated X) e r) (he : OrNull (Distributed X) e) :
    OrNull (Distributed X) r := by
  rcases he with rfl | he
  · exact .inl ((retains_of_rebuilt_isolated h).fixed trivial)
  have hmono : ∀ {sides turned}, e.Monomial X sides turned → OrNull (Distributed X) r := by
    intro sides turned hm
    have hm := Multiple.of_solid (allSolid_monomial _ _) hm
    exact ((retains_of_rebuilt_isolated h).monomial _ _ trivial hm).imp Multiple.distributed
  cases e with
  | add | sub | scale =>
    rcases rebuilt_linear h he.linear with ⟨hk, -⟩ | ⟨hk, -⟩ | hr
    · cases hk
    · cases hk
    · exact hr
  | _ =>
    obtain ⟨sides, turned, hm⟩ := he
    exact hmono hm

theorem rebuilt_traced (h : Rebuilt (Isolated X) e r) (he : e.Traced X) (hk : e.kind ≠ .trace) :
    OrNull (Readable X) r := by
  cases h with
  | add ha hb => exact readable_plus (ha.traced he.1) (hb.traced he.2)
  | sub ha hb => exact readable_minus (ha.traced he.1) (hb.traced he.2)
  | scale ha hb =>
    exact homogeneous_readable.scalar_times_orNull (ha.retains.scalar he.1) (hb.traced he.2)
  | trace => exact absurd rfl hk
  | _ => cases he

/-- What settling its operands makes of the linear node `e`. -/
def Loosened (X : String) (e r : Expr S) : Prop :=
  OrNull (Distributed X) r ∨ e.kind = .matMul ∧ r.Joint X ∨ e.kind = .transpose ∧ r.Turned X

/-- What the linear node `e` is while its operands are settled. A product may become a multiple, but
that is not one that has been seen. -/
structure Loosening (X : String) (e : Expr S) (seen : List (Expr S)) (x : Expr S) : Prop where
  linear : x.Linear X
  product : x.kind = .matMul → e.kind = .matMul ∧ ∀ y ∈ seen, y.kind = .matMul
  transpose : x.kind = .transpose → e.kind = .transpose

omit [ExactScalar S] in
theorem loosening_self (he : e.Linear X) : Loosening X e [e] e where
  linear := he
  product hk := ⟨hk, by simpa using hk⟩
  transpose := id

theorem Loosening.step {seen : List (Expr S)} {x next : Expr S} (h : Loosening X e seen x)
    (hb : Rebuilt (Isolated X) x next) : OrNull (Distributed X) next ∨
      Loosening X e (next :: seen) next ∧ (next = x ∨ next ∈ seen → Loosened X e next) := by
  rcases rebuilt_linear hb h.linear with ⟨hk, hnext⟩ | ⟨hk, hnext⟩ | hnext
  · obtain ⟨hek, hseen⟩ := h.product hk
    rcases hnext with rfl | hnext
    · exact .inl (.inl rfl)
    rcases hnext.joint_or_scale with hjoint | ⟨hks, hl⟩
    · have hkind := hjoint.kind_eq
      refine .inr ⟨⟨hjoint.linear, fun _ => ⟨hek, List.forall_mem_cons.2 ⟨hkind, hseen⟩⟩,
        fun hk' => ?_⟩, fun _ => .inr (.inl ⟨hek, hjoint⟩)⟩
      cases hkind.symm.trans hk'
    · -- a multiple has not been seen, so the loop goes on
      refine .inr ⟨⟨hl, fun hk' => ?_, fun hk' => ?_⟩, fun hback => ?_⟩
      · cases hks.symm.trans hk'
      · cases hks.symm.trans hk'
      · rcases hback with rfl | hmem
        · cases hks.symm.trans hk
        · cases hks.symm.trans (hseen next hmem)
  · rcases hnext with rfl | hnext | hturned
    · exact .inl (.inl rfl)
    · exact .inl (.inr hnext)
    · have hkind := hturned.kind_eq
      refine .inr ⟨⟨hturned.linear, fun hk' => ?_, fun _ => h.transpose hk⟩,
        fun _ => .inr (.inr ⟨h.transpose hk, hturned⟩)⟩
      cases hkind.symm.trans hk'
  · exact .inl hnext

section Operands

variable {inv : Journal S → Prop} {visit : List Nat → Expr S → Running S (Expr S)}
  {path : List Nat} {fuel : Nat}

theorem yields_operands_linear {options : Options} (hu : Unlimited options inv)
    (hv : ∀ path e, Handled X e → Yields inv (visit path e) fun r _ => Isolated X e r)
    (he : OrNull (Linear X) e) :
    Yields inv (settleOperands visit path fuel [e] e) fun r _ => Loosened X e r := by
  refine Yields.settleOperands
    (K := fun seen x => OrNull (Distributed X) x ∨ Loosening X e seen x)
    (fun seen x hx => ?_) fuel ?_
  · have hhandled : Handled X x := by
      rcases hx with (rfl | hx) | hx
      · exact .inl rfl
      · exact .inr (.inr (.inr (.inl hx.linear)))
      · exact .inr (.inr (.inr (.inl hx.linear)))
    refine (Yields.rebuild hv x fun a ha => hhandled.operand ha).mono fun next j hj hb => ?_
    rcases hx with hx | hx
    · have hnext := rebuilt_distributed hb hx
      exact ⟨fun _ => .inl hnext, fun _ _ => .inl hnext⟩
    · rcases hx.step hb with hnext | ⟨hnext, hback⟩
      · exact ⟨fun _ => .inl hnext, fun _ _ => .inl hnext⟩
      · refine ⟨?_, fun _ _ => .inr hnext⟩
        rintro (heq | hx' | hmem)
        · exact hback (.inl (eq_of_beq heq))
        · rw [hu.unspent hj] at hx'
          cases hx'
        · exact hback (.inr (isSeen_iff.1 hmem))
  · rcases he with rfl | he
    · exact .inl (.inl rfl)
    · exact .inr (loosening_self he)

/-- The operand of a trace is settled on its own. -/
theorem yields_operands_trace {A B : Expr S → Prop} {a : Expr S}
    (hv : ∀ path a, A a → Yields inv (visit path a) fun r _ => OrNull B r)
    (hB : ∀ b, B b → A b ∧ b.Linear X) (ha : A a) :
    Yields inv (settleOperands visit path fuel [trace a] (trace a)) fun r _ =>
      OrNull (fun r => ∃ b, r = trace b ∧ B b) r := by
  refine Yields.settleOperands (K := fun _ x => OrNull (fun x => ∃ a, x = trace a ∧ A a) x)
    (fun seen x hx => ?_) fuel (.inr ⟨a, rfl, ha⟩)
  have hop : ∀ a ∈ x.children, A a := by
    rcases hx with rfl | ⟨a, rfl, ha⟩
    · nofun
    · simpa [children] using ha
  refine (Yields.rebuild hv x hop).mono fun next j _ hb => ?_
  have hnext : OrNull (fun r => ∃ b, r = trace b ∧ B b) next := by
    rcases hx with rfl | ⟨a, rfl, -⟩
    · cases hb
      exact .inl rfl
    · cases hb with
      | @trace _ b hb =>
        rcases hb with rfl | hb
        · exact .inl rfl
        · have hl := (hB b hb).2
          exact .inr ⟨b, traced_eq_trace (homogeneous_linear.isNull_eq hl)
            (homogeneous_linear.isScalar_eq hl), hb⟩
  refine ⟨fun _ => hnext, fun _ _ => hnext.imp ?_⟩
  rintro ⟨b, rfl, hb'⟩
  exact ⟨b, rfl, (hB b hb').1⟩

theorem yields_operands_traced
    (hv : ∀ path e, Handled X e → Yields inv (visit path e) fun r _ => Isolated X e r)
    (he : OrNull (Readable X) e ∨ e.Traced X ∧ e.kind ≠ .trace) :
    Yields inv (settleOperands visit path fuel [e] e) fun r _ => OrNull (Readable X) r := by
  refine Yields.settleOperands (K := fun _ x => OrNull (Readable X) x ∨ x.Traced X ∧ x.kind ≠ .trace)
    (fun seen x hx => ?_) fuel he
  have hWx : Handled X x := by
    rcases hx with (rfl | hx) | hx
    · exact .inl rfl
    · exact .inr (.inr (.inr (.inr hx.traced)))
    · exact .inr (.inr (.inr (.inr hx.1)))
  refine (Yields.rebuild hv x fun a ha => hWx.operand ha).mono fun next j _ hb => ?_
  have hnext : OrNull (Readable X) next := by
    have hret := retains_of_rebuilt_isolated hb
    rcases hx with hx | ⟨hx, hk⟩
    · exact hret.orNull hx hret.readable
    · exact rebuilt_traced hb hx hk
  exact ⟨fun _ => hnext, fun _ _ => .inl hnext⟩

end Operands

/-! ## Rules -/

section Rules

variable {inv : Journal S → Prop} {options : Options} {operands : Expr S → Running S (Expr S)}
  {path : List Nat} {fuel : Nat}

theorem retains_of_choose {seen : List (Expr S)} {previous : Option (Expr S)}
    {m : RuleMatch S} (h : choose Stage.isolating seen previous e = some m) :
    Retains X (fun _ _ => True) e m.output := by
  have hm : m ∈ ruleMatches e Stage.isolate.rules := (mem_of_choose h).1
  exact retains_of_rule (fun _ _ _ => .inl rfl) hm

/-- Where no rule is chosen though what rules make of `x` is of other kinds than `x` and what has
been seen, there is nothing to be done. -/
theorem not_step_of_choose_eq_none {seen : List (Expr S)} {previous : Option (Expr S)} {x o : Expr S}
    {K : Kind → Prop} (hnone : choose Stage.isolating seen previous x = none) (hself : K x.kind)
    (hseen : ∀ y ∈ seen, K y.kind) (hkind : ∀ {o}, IsolatingStep x o → ¬ K o.kind) :
    ¬ IsolatingStep x o := by
  intro hs
  rcases isSeen_of_choose_eq_none hnone hs with rfl | hmem
  · exact hkind hs hself
  · exact hkind hs (hseen o hmem)

theorem yields_rules_linear (hu : Unlimited options inv)
    (hop : ∀ e, OrNull (Linear X) e → Yields inv (operands e) fun r _ => Loosened X e r)
    (he : OrNull (Distributed X) e ∨ e.Joint X ∨ e.Turned X) :
    Yields inv (applyRules options .isolate Stage.isolating operands path fuel [e] none e) fun r _ =>
      OrNull (Distributed X) r := by
  -- what has been seen are transposes, then also products
  refine hu.applyRules (L := fun seen _ x => OrNull (Distributed X) x ∨
    x.Joint X ∧ (∀ y ∈ seen, y.kind = .matMul ∨ y.kind = .transpose) ∨
    x.Turned X ∧ ∀ y ∈ seen, y.kind = .transpose) (fun seen previous x hx hnone => ?_)
    (fun seen previous x m hx hm => ?_) fuel ?_
  · rcases hx with hx | ⟨hx, hseen⟩ | ⟨hx, hseen⟩
    · exact hx
    · refine .inr (hx.distributed_or_step.resolve_right ?_)
      rintro ⟨o, hs⟩
      exact not_step_of_choose_eq_none (K := fun k => k = .matMul ∨ k = .transpose) hnone
        (.inl hx.kind_eq) hseen hx.kind_of_step hs
    · refine .inr (hx.distributed_or_step.resolve_right ?_)
      rintro ⟨o, hs⟩
      exact not_step_of_choose_eq_none (K := fun k => k = .transpose) hnone hx.kind_eq hseen
        hx.kind_of_step hs
  · have hs := isolatingStep_of_choose hm
    have hret := retains_of_choose (X := X) hm
    rcases hx with (rfl | hx) | ⟨hx, hseen⟩ | ⟨hx, hseen⟩
    · cases hs
    · exact absurd hs hx.not_step
    · have hk := hx.kind_of_step hs
      refine (hop m.output (hret.linear hx.linear)).mono fun next _ _ hnext => ?_
      rcases hnext with hnext | ⟨hk', -⟩ | ⟨hk', -⟩
      · exact ⟨fun _ => hnext, fun _ => .inl hnext⟩
      · exact absurd (.inl hk') hk
      · exact absurd (.inr hk') hk
    · have hk := hx.kind_of_step hs
      refine (hop m.output (hret.linear hx.linear)).mono fun next _ _ hnext => ?_
      rcases hnext with hnext | ⟨-, hjoint⟩ | ⟨hk', -⟩
      · exact ⟨fun _ => hnext, fun _ => .inl hnext⟩
      · refine ⟨fun hmem => ?_, fun _ => .inr (.inl ⟨hjoint, List.forall_mem_cons.2
          ⟨.inl hjoint.kind_eq, fun y hy => .inr (hseen y hy)⟩⟩)⟩
        cases hjoint.kind_eq.symm.trans (hseen next (isSeen_iff.1 hmem))
      · exact absurd hk' hk
  · rcases he with he | he | he
    · exact .inl he
    · exact .inr (.inl ⟨he, by simp [he.kind_eq]⟩)
    · exact .inr (.inr ⟨he, by simp [he.kind_eq]⟩)

/-- The trace of `a` has been seen, with other traces, and none of them is nearer than this one. -/
structure Approaching (X : String) (seen : List (Expr S)) (a : Expr S) : Prop where
  distributed : a.Distributed X
  mem : trace a ∈ seen
  traces : ∀ y ∈ seen, y.kind = .trace
  farther : ∀ y ∈ seen, ∀ sides turned, a.Multiple (Monomial X sides turned) →
    ¬ y.Nearer X (remoteness sides turned)

theorem approaching_self {a : Expr S} (ha : a.Distributed X) : Approaching X [trace a] a where
  distributed := ha
  mem := .head _
  traces y hy := by rw [List.mem_singleton.1 hy]; rfl
  farther y hy _ _ := by
    rw [List.mem_singleton.1 hy]
    exact not_nearer_self

theorem Approaching.readable {seen : List (Expr S)} {previous : Option (Expr S)} {a : Expr S}
    (h : Approaching X seen a) (hnone : choose Stage.isolating seen previous (trace a) = none) :
    (trace a).Readable X := by
  refine h.distributed.readable_or_step.resolve_right ?_
  rintro ⟨o, hs⟩
  have ho : o ∈ seen := by
    rcases isSeen_of_choose_eq_none hnone hs with rfl | ho
    · exact h.mem
    · exact ho
  rcases h.distributed.kind_or_nearer_of_step hs with hk | ⟨sides, turned, hm, hn⟩
  · exact hk (h.traces o ho)
  · exact h.farther o ho _ _ (.of_solid (allSolid_monomial _ _) hm) hn

/-- A trace that is nearer has not been seen. -/
theorem Approaching.nearer {seen : List (Expr S)} {a b : Expr S} {sides sides' : List Side}
    {turned turned' : Bool} (h : Approaching X seen a)
    (ha : a.Multiple (Monomial X sides turned)) (hb : b.Multiple (Monomial X sides' turned'))
    (hlt : remoteness sides' turned' < remoteness sides turned) :
    trace b ∉ seen ∧ Approaching X (trace b :: seen) b := by
  refine ⟨fun hmem => h.farther _ hmem _ _ ha ⟨sides', turned', hb, hlt⟩, hb.distributed, .head _,
    List.forall_mem_cons.2 ⟨rfl, h.traces⟩,
    List.forall_mem_cons.2 ⟨fun _ _ => not_nearer_self, fun y hy _ _ hb' hn => ?_⟩⟩
  rw [hb'.remoteness_eq hb] at hn
  exact h.farther y hy _ _ ha (hn.mono hlt.le)

theorem yields_rules_traced (hu : Unlimited options inv)
    (hmono : ∀ sides turned a, a.Multiple (Monomial X sides turned) →
      Yields inv (operands (trace a)) fun r _ =>
        OrNull (fun r => ∃ b, r = trace b ∧ b.Multiple (Monomial X sides turned)) r)
    (hread : ∀ e, OrNull (Readable X) e ∨ e.Traced X ∧ e.kind ≠ .trace →
      Yields inv (operands e) fun r _ => OrNull (Readable X) r)
    (he : OrNull (fun e => e.Readable X ∨ ∃ a, e = trace a ∧ a.Distributed X) e) :
    Yields inv (applyRules options .isolate Stage.isolating operands path fuel [e] none e) fun r _ =>
      OrNull (Readable X) r := by
  refine hu.applyRules (L := fun seen _ x => OrNull (Readable X) x ∨
    ∃ a, x = trace a ∧ Approaching X seen a)
    (fun seen previous x hx hnone => ?_) (fun seen previous x m hx hm => ?_) fuel ?_
  · rcases hx with hx | ⟨a, rfl, ha⟩
    · exact hx
    · exact .inr (ha.readable hnone)
  · have hret := retains_of_choose (X := X) hm
    rcases hx with hx | ⟨a, rfl, ha⟩
    · refine (hread m.output (.inl (hret.orNull hx hret.readable))).mono fun next _ _ hnext => ?_
      exact ⟨fun _ => hnext, fun _ => .inl hnext⟩
    by_cases hk : m.output.kind = .trace
    · -- the step leads to a nearer trace, and so does whatever its operand is settled to
      obtain ⟨sides, turned, hplace, hn⟩ :=
        (ha.distributed.kind_or_nearer_of_step (isolatingStep_of_choose hm)).resolve_left (absurd hk)
      have hplace := Multiple.of_solid (allSolid_monomial _ _) hplace
      generalize m.output = o at hn
      cases o <;> try cases hn
      case trace.intro s sides' hn =>
        obtain ⟨turned', hs, hlt⟩ := hn
        refine (hmono sides' turned' s hs).mono fun next _ _ hnext => ?_
        rcases hnext with rfl | ⟨b, rfl, hb⟩
        · exact ⟨fun _ => .inl rfl, fun _ => .inl (.inl rfl)⟩
        · obtain ⟨hunseen, hnext⟩ := ha.nearer hplace hb hlt
          exact ⟨fun hmem => absurd (isSeen_iff.1 hmem) hunseen, fun _ => .inr ⟨b, rfl, hnext⟩⟩
    · refine (hread m.output ?_).mono fun next _ _ hnext =>
        ⟨fun _ => hnext, fun _ => .inl hnext⟩
      rcases hret.traced ha.distributed.linear with heq | ht
      · exact .inl (.inl heq)
      · exact .inr ⟨ht, hk⟩
  · rcases he with rfl | he | ⟨a, rfl, ha⟩
    · exact .inl (.inl rfl)
    · exact .inl (.inr he)
    · exact .inr ⟨a, rfl, approaching_self ha⟩

end Rules

/-! ## Nodes and stages -/

/-- What a node has become can be remembered as its own settled form. -/
theorem Isolated.self (he : Handled X e) (h : Isolated X e r) : Isolated X r r := by
  refine ⟨retains_self r, fun hr => ?_, fun hr => ?_⟩
  · rcases he with rfl | he | he | he | he
    · exact .inl (h.retains.fixed trivial)
    · have hs := homogeneous_linear.isScalar_eq hr
      rw [h.retains.scalar he] at hs
      cases hs
    · exact (h.retains.plain he).imp fun hp => absurd hr hp.not_linear
    · exact h.linear he
    · exact (h.retains.traced he).imp fun ht => absurd (.inr hr) ht.not_matrix
  · rcases he with rfl | he | he | he | he
    · exact .inl (h.retains.fixed trivial)
    · have hs := homogeneous_traced.isScalar_eq hr
      rw [h.retains.scalar he] at hs
      cases hs
    · exact (h.retains.plain he).imp fun hp => absurd (.inl hp) hr.not_matrix
    · exact (h.retains.linear he).imp fun hl => absurd (.inr hl) hr.not_matrix
    · exact h.traced he

theorem yields_node {inv : Journal S → Prop} {options : Options} {path : List Nat} {fuel : Nat}
    {visit : List Nat → Expr S → Running S (Expr S)} (hu : Unlimited options inv)
    (hv : ∀ path e, Handled X e → Yields inv (visit path e) fun r _ => Isolated X e r)
    (he : Handled X e) :
    Yields inv (settleNode options .isolate Stage.isolating visit path fuel e) fun r _ =>
      Isolated X e r := by
  have hretains : Yields inv (settleNode options .isolate Stage.isolating visit path fuel e)
      fun r _ => Retains X (fun _ _ => True) e r :=
    (respected_retains places_all fun _ _ _ => .inl rfl).settleNode
      (fun step => (hu.allowed step).mono fun _ _ _ _ => trivial)
      (fun path e he => (hv path e he).mono fun _ _ _ h => h.retains) he
  have hlinear : e.Linear X → Yields inv
      (settleNode options .isolate Stage.isolating visit path fuel e) fun r _ =>
        OrNull (Distributed X) r := by
    intro hl
    have hop : ∀ x, OrNull (Linear X) x → Yields inv (settleOperands visit path fuel [x] x)
        fun r _ => Loosened X x r := fun x hx => yields_operands_linear hu hv hx
    refine (hop e (.inr hl)).seq fun start hstart => yields_rules_linear hu hop ?_
    exact hstart.imp_right fun h => h.imp And.right And.right
  have htraced : e.Traced X → Yields inv
      (settleNode options .isolate Stage.isolating visit path fuel e) fun r _ =>
        OrNull (Readable X) r := by
    intro ht
    have hstart : Yields inv (settleOperands visit path fuel [e] e) fun r _ =>
        OrNull (fun r => r.Readable X ∨ ∃ a, r = trace a ∧ a.Distributed X) r := by
      by_cases hk : e.kind = .trace
      · cases e <;> try cases hk
        case trace.refl a =>
          refine (yields_operands_trace (A := Linear X) (B := Distributed X)
            (fun path a ha => (hv path a ?_).mono fun _ _ _ h => h.linear ha)
            (fun b hb => ⟨hb.linear, hb.linear⟩) ht).mono fun _ _ _ h => h.imp .inr
          exact .inr (.inr (.inr (.inl ha)))
      · exact (yields_operands_traced hv (.inr ⟨ht, hk⟩)).mono fun _ _ _ h => h.imp .inl
    refine hstart.seq fun start hstart => yields_rules_traced hu
      (fun sides turned a ha => ?_) (fun x hx => yields_operands_traced hv hx) hstart
    refine yields_operands_trace (fun path a ha => (hv path a ?_).mono fun _ _ _ h =>
      h.retains.monomial _ _ trivial ha) (fun b hb => ⟨hb, hb.distributed.linear⟩) ha
    exact .inr (.inr (.inr (.inl ha.distributed.linear)))
  intro j hj r j' hr
  obtain ⟨hj', hret⟩ := hretains j hj r j' hr
  exact ⟨hj', hret, fun hl => (hlinear hl j hj r j' hr).2, fun ht => (htraced ht j hj r j' hr).2⟩

/-- The first stage makes a combination of traces readable. -/
theorem yields_isolate {options : Options} {fuel : Nat} (hb : options.budget = none)
    (he : OrNull (Traced X) e) :
    Yields (Unspent options) (runStage options fuel .isolate e) fun r _ => OrNull (Readable X) r := by
  have hWe : Handled X e := he.imp_right fun ht => .inr (.inr (.inr ht))
  refine Yields.runStage (R := Isolated X) (Yields.mono (Yields.settle (W := Handled X)
    (fun _ _ _ hj hr => hj.recall hr) (fun _ _ _ hj he hr => hj.remember hr (hr.self he))
    (fun visit hv path fuel x hx => ?_) fuel [1] e hWe) fun r j _ hr => hr.retains.orNull he hr.traced)
  exact yields_node (unlimited_remembers hb _) hv hx

end Canonical

/-- The canonical form of a differential is readable, if it is not the zero element. -/
theorem Expr.readable_of_canonicalize {S : Type} [ExactScalar S] {X : String} {fuel : Nat}
    {e c : Expr S} (he : OrNull (Traced X) e) (h : e.canonicalize? fuel = some c) :
    OrNull (Readable X) c := by
  have hlater : ∀ stage {a : Expr S}, OrNull (Readable X) a →
      Canonical.Yields (Canonical.Unspent {}) (Canonical.runStage {} fuel stage a) fun r _ =>
        OrNull (Readable X) r := by
    intro stage a ha
    have hWa : Canonical.Handled X a := ha.imp_right fun ha => .inr (.inr (.inr ha.traced))
    exact ((Canonical.respected_retains Canonical.places_atRight fun _ _ hp => .inr hp).runStage
      hWa).mono fun r _ _ hr => hr.orNull ha hr.readable
  have hstart : Canonical.Unspent {} ({} : Canonical.Journal S) := fun _ => rfl
  refine Canonical.of_run hstart ?_ h
  refine Canonical.Yields.rounds (K := OrNull (Traced X)) (fun x hx => hx.imp Readable.traced)
    (fun x hx => ?_) fuel he
  exact Canonical.Yields.runStages (Canonical.yields_isolate rfl hx)
    (fun a ha => hlater .normalize ha) fun b hb => hlater .collect hb

end TraceCalculus
