import TraceCalculus.Proofs.RuleWeights

/-! # What is settled is lighter

`Canonical.Settling X P A e r`: a stage can make `r` of `e`. The class of the expression is
retained, `r` is `e` itself or lighter than `e`, and scalars are in the form that products leave them
in. Both parts of a run respect this: the first stage with one weighing
(`Canonical.respected_isolating`), and all stages with the other one once the differential is
readable (`Canonical.respected_collecting`).
-/

set_option autoImplicit false

namespace TraceCalculus

variable {S : Type} [ExactScalar S] {X : String}

namespace Canonical

open TraceCalculus.Expr

variable {P : List Side → Bool → Prop} {A : Weighing} {e r : Expr S}

/-- The class of `e` is that of `r`, and `r` is `e` or lighter. A scalar is brought to normal
form. -/
structure Settling (X : String) (P : List Side → Bool → Prop) (A : Weighing) (e r : Expr S) :
    Prop where
  retains : Retains X P e r
  descends : Descends A e r
  normal : e.isScalar = true → r.isNormalScalar = true

theorem Settling.trans {a b c : Expr S} (h : Settling X P A a b) (h' : Settling X P A b c) :
    Settling X P A a c :=
  ⟨h.retains.trans h'.retains, h.descends.trans h'.descends,
    fun hs => h'.normal (h.retains.scalar hs)⟩

/-- Scalars in normal form stay, and other scalars become lighter. -/
theorem scalar_descends_of_rebuilt (he : e.isScalar = true) (h : Rebuilt (Settling X P A) e r) :
    Descends A e r ∧ r.isNormalScalar = true := by
  cases h with
  | scalarVar | literal => exact ⟨descends_self _, rfl⟩
  | @scale a a' b b' ha hb =>
    have hs := he
    simp only [Expr.isScalar, Bool.and_eq_true] at hs
    have hn := (product_times a' b').isNormalScalar (ha.normal hs.1) (hb.normal hs.2)
    refine ⟨?_, hn⟩
    by_cases hne : (scale a b).isNormalScalar = true
    · obtain ⟨⟨name, rfl⟩, hna, -⟩ := isNormalScalar_scale.1 hne
      have heq : ∀ {k k' : Expr S}, k.isNormalScalar = true → Descends A k k' → k' = k := by
        intro k k' hk hd
        refine hd.resolve_right fun hlt => ?_
        rw [weight_of_isScalar (isScalar_of_isNormalScalar hk), if_pos hk] at hlt
        exact absurd hlt (Nat.not_lt_zero _)
      rw [heq hna ha.descends, heq rfl hb.descends, times_of_isNormalScalar hne]
      exact descends_self _
    · refine .inr ?_
      rw [weight_of_isScalar (isScalar_of_isNormalScalar hn), if_pos hn, weight_of_isScalar he,
        if_neg hne]
      exact Nat.zero_lt_one
  | _ => cases he

theorem plain_descends_of_rebuilt (he : e.Plain) (h : Rebuilt (Settling X P A) e r) :
    Descends A e r := by
  cases h with
  | var => exact descends_self _
  | add ha hb =>
    exact .plus homogeneous_plain (ha.retains.plain he.1) (hb.retains.plain he.2) ha.descends
      hb.descends
  | sub ha hb =>
    exact .minus homogeneous_plain (ha.retains.plain he.1) (hb.retains.plain he.2) ha.descends
      hb.descends
  | scale ha hb =>
    exact .scaled homogeneous_plain (ha.retains.scalar he.1) he.2 (hb.retains.plain he.2)
      ha.descends hb.descends
  | matMul ha hb =>
    exact .times weighed_plain weighed_plain he.1 he.2 (ha.retains.plain he.1)
      (hb.retains.plain he.2) ha.descends hb.descends
  | transpose ha =>
    exact .transposed weighed_plain (fun _ h => h) (fun _ => id) he (ha.retains.plain he)
      ha.descends
  | _ => cases he

theorem linear_descends_of_rebuilt (he : e.Linear X) (h : Rebuilt (Settling X P A) e r) :
    Descends A e r := by
  cases h with
  | @differential a a' ha =>
    have hX : a = .var X := he
    have hfixed : a.Fixed X := by
      rw [hX]
      trivial
    rw [asOperand_exact, ha.retains.fixed hfixed]
    exact descends_self _
  | add ha hb =>
    exact .plus homogeneous_linear (ha.retains.linear he.1) (hb.retains.linear he.2) ha.descends
      hb.descends
  | sub ha hb =>
    exact .minus homogeneous_linear (ha.retains.linear he.1) (hb.retains.linear he.2) ha.descends
      hb.descends
  | scale ha hb =>
    exact .scaled homogeneous_linear (ha.retains.scalar he.1) he.2 (hb.retains.linear he.2)
      ha.descends hb.descends
  | matMul ha hb =>
    rcases he with he | he
    · exact .times weighed_plain weighed_linear he.1 he.2 (ha.retains.plain he.1)
        (hb.retains.linear he.2) ha.descends hb.descends
    · exact .times weighed_linear weighed_plain he.1 he.2 (ha.retains.linear he.1)
        (hb.retains.plain he.2) ha.descends hb.descends
  | transpose ha =>
    exact .transposed weighed_linear (fun _ h => h) (fun _ => id) he (ha.retains.linear he)
      ha.descends
  | _ => cases he

theorem traced_descends_of_rebuilt (he : e.Traced X) (h : Rebuilt (Settling X P A) e r) :
    Descends A e r := by
  cases h with
  | add ha hb =>
    exact .plus homogeneous_traced (ha.retains.traced he.1) (hb.retains.traced he.2) ha.descends
      hb.descends
  | sub ha hb =>
    exact .minus homogeneous_traced (ha.retains.traced he.1) (hb.retains.traced he.2) ha.descends
      hb.descends
  | scale ha hb =>
    exact .scaled homogeneous_traced (ha.retains.scalar he.1) he.2 (hb.retains.traced he.2)
      ha.descends hb.descends
  | trace ha => exact .traced weighed_linear he (ha.retains.linear he) ha.descends
  | _ => cases he

theorem settling_of_rebuilt (hP : Places P) (he : Handled X e) (h : Rebuilt (Settling X P A) e r) :
    Settling X P A e r := by
  have hr : Retains X P e r := retains_of_rebuilt hP (h.mono fun _ _ h => h.retains)
  have hns : ∀ {C : Expr S → Prop}, Homogeneous C → C e → e.isScalar = true →
      r.isNormalScalar = true := by
    intro C hC hCe hs
    rw [hC.isScalar_eq hCe] at hs
    cases hs
  rcases he with rfl | he | he | he | he
  · cases h
    exact ⟨hr, descends_self _, nofun⟩
  · obtain ⟨hd, hn⟩ := scalar_descends_of_rebuilt he h
    exact ⟨hr, hd, fun _ => hn⟩
  · exact ⟨hr, plain_descends_of_rebuilt he h, hns homogeneous_plain he⟩
  · exact ⟨hr, linear_descends_of_rebuilt he h, hns homogeneous_linear he⟩
  · exact ⟨hr, traced_descends_of_rebuilt he h, hns homogeneous_traced he⟩

theorem Settling.self (he : Handled X e) (h : Settling X P A e r) : Settling X P A r r := by
  refine ⟨retains_self r, descends_self r, fun hs => h.normal ?_⟩
  have hno : ∀ {C : Expr S → Prop}, Homogeneous C → ¬ OrNull C r := by
    rintro C hC (rfl | hr)
    · cases hs
    · rw [hC.isScalar_eq hr] at hs
      cases hs
  rcases he with rfl | he | he | he | he
  · rw [h.retains.fixed trivial] at hs
    cases hs
  · exact he
  · exact absurd (h.retains.plain he) (hno homogeneous_plain)
  · exact absurd (h.retains.linear he) (hno homogeneous_linear)
  · exact absurd (h.retains.traced he) (hno homogeneous_traced)

/-- No rule is about scalars and the zero element. -/
theorem not_mem_ruleMatches {stage : Stage} {m : RuleMatch S}
    (he : e = .null ∨ e.isScalar = true) : m ∉ ruleMatches e stage.rules := by
  intro hm
  obtain ⟨hr, hmatch⟩ := mem_ruleMatches hm
  have hkind := Stage.kind_pattern m.assignment hr
  rw [instantiate_of_matchAgainst hmatch] at hkind
  cases e <;> simp_all [Expr.kind, Expr.isScalar]

/-- What a rule makes of a node is related to it, if it is lighter. -/
theorem settling_of_rule {stage : Stage} {m : RuleMatch S}
    (hP : ∀ sides turned, P sides turned → stage = .isolate ∨ AtRight sides turned)
    (hm : m ∈ ruleMatches e stage.rules) (hd : Descends A e m.output) :
    Settling X P A e m.output :=
  ⟨retains_of_rule hP hm, hd, fun hs => absurd hm (not_mem_ruleMatches (.inr hs))⟩

/-! ## The stages -/

/-- An operand weighs no more than the node. -/
theorem weight_operand_le {a : Expr S} (he : Handled X e) (ha : a ∈ e.children) :
    a.weight A ≤ e.weight A := by
  have hsum : ∀ {b c : Expr S}, a = b ∨ a = c → a.weight A ≤ b.weight A + c.weight A := by
    rintro b c (rfl | rfl) <;> omega
  cases e <;> simp only [children, List.mem_cons, List.not_mem_nil, or_false] at ha
  case differential inner =>
    subst ha
    rcases he with he | he | he | he | he <;> try cases he
    exact Nat.le_refl 5
  case add b c | sub b c =>
    exact (hsum ha).trans (Nat.le_add_right _ 5)
  case scale k b =>
    by_cases hs : (scale k b).isScalar = true
    · have hkb := hs
      simp only [Expr.isScalar, Bool.and_eq_true] at hkb
      -- the factors of a scalar in normal form are in normal form themselves
      by_cases hn : (scale k b).isNormalScalar = true
      · obtain ⟨⟨name, rfl⟩, hk, -⟩ := isNormalScalar_scale.1 hn
        rcases ha with rfl | rfl
        · rw [weight_of_isScalar hkb.1, if_pos hk]
          exact Nat.zero_le _
        · exact Nat.zero_le _
      · rw [weight_of_isScalar hs, if_neg hn]
        rcases ha with rfl | rfl
        · exact weight_le_one hkb.1
        · exact weight_le_one hkb.2
    · have hb : b.isScalar = false := by
        rcases he with he | he | he | he | he
        · cases he
        · exact absurd he hs
        · exact homogeneous_plain.isScalar_eq he.2
        · exact homogeneous_linear.isScalar_eq he.2
        · exact homogeneous_traced.isScalar_eq he.2
      rw [weight_scale hb]
      exact (hsum ha).trans (Nat.le_add_right _ 3)
  case matMul b c =>
    have hbc : 5 ≤ b.weight A ∧ 5 ≤ c.weight A := by
      rcases he with he | he | he | he | he <;> try cases he
      case inr.inr.inl.intro hb hc => exact ⟨heavy_plain b hb, heavy_plain c hc⟩
      case inr.inr.inr.inl.inl h => exact ⟨heavy_plain b h.1, heavy_linear c h.2⟩
      case inr.inr.inr.inl.inr h => exact ⟨heavy_linear b h.1, heavy_plain c h.2⟩
    rcases ha with rfl | rfl
    · exact (A.left_lt _ _ hbc.1 hbc.2).le
    · exact (A.right_lt _ _ hbc.1 hbc.2).le
  case trace b =>
    subst ha
    rcases he with he | he | he | he | he <;> try cases he
    exact (A.lt_traced (heavy_linear a he)).le
  case transpose b =>
    subst ha
    rcases he with he | he | he | he | he <;> try cases he
    · exact (A.lt_turned _ (heavy_plain a he)).le
    · exact (A.lt_turned _ (heavy_linear a he)).le

/-- Every rule of the first stage makes an expression lighter. -/
theorem weight_isolate {m : RuleMatch S} (he : Handled X e)
    (hm : m ∈ ruleMatches e Stage.isolate.rules) :
    m.output.weight .isolating < e.weight .isolating := by
  obtain ⟨hr, hmatch⟩ := mem_ruleMatches hm
  have hf := faces_of_matchAgainst hmatch
  have hinst := instantiate_of_matchAgainst hmatch
  have hfilled := RuleMatch.filled_output hm
  rcases he with he | he | he | he | he
  · exact absurd hm (not_mem_ruleMatches (.inl he))
  · exact absurd hm (not_mem_ruleMatches (.inr he))
  · rw [← hinst] at he
    rw [← hinst]
    exact (hfilled.descends_plain (Stage.plain_replacement hr he)).le.trans_lt
      (Stage.isolating_plain hr hf he)
  · rw [← hinst] at he
    rw [← hinst]
    exact (hfilled.descends_linear (Stage.linear_replacement hr he)).le.trans_lt
      (Stage.isolating_linear hr hf he)
  · rw [← hinst] at he
    rw [← hinst]
    exact (hfilled.descends_traced (Stage.traced_replacement hr hf he)).le.trans_lt
      (Stage.isolating_traced hr hf he)

/-- The first stage. -/
theorem respected_isolating :
    Respected (Handled X : Expr S → Prop) .isolate (Settling X AtRight .isolating) where
  operand := Handled.operand
  result he h := he.result h.retains
  trans := Settling.trans
  recalled h hr := eq_of_beq h ▸ hr
  self := Settling.self
  rebuilt := settling_of_rebuilt places_atRight
  rule he h hm := settling_of_rule (fun _ _ hp => .inr hp) hm
    (.inr (weight_isolate (he.result h.retains) hm))

/-- The expressions that occur once a differential is readable. -/
def Refined (X : String) (e : Expr S) : Prop :=
  e = .null ∨ e.isScalar = true ∨ e.Plain ∨ e.Multiple (Core X) ∨ e.Readable X

theorem linear_of_multiple_core (h : e.Multiple (Core X)) : e.Linear X := by
  have hcore : ∀ {a : Expr S}, a.Core X → a.Linear X :=
    fun h => h.elim Monomial.linear Monomial.linear
  cases e with
  | scale k b => exact ⟨h.1.1, hcore h.2⟩
  | _ => exact hcore h

theorem Refined.handled (he : Refined X e) : Handled X e := by
  rcases he with he | he | he | he | he
  · exact .inl he
  · exact .inr (.inl he)
  · exact .inr (.inr (.inl he))
  · exact .inr (.inr (.inr (.inl (linear_of_multiple_core he))))
  · exact .inr (.inr (.inr (.inr he.traced)))

theorem Refined.operand {a : Expr S} (he : Refined X e) (ha : a ∈ e.children) : Refined X a := by
  have hcore : ∀ {b : Expr S}, b.Core X → b.Multiple (Core X) := .of_solid allSolid_core
  rcases he with rfl | he | he | he | he
  · cases ha
  · cases e <;> simp_all [Expr.children, Expr.isScalar, Refined]
    rcases ha with rfl | rfl
    · exact .inr (.inl he.1)
    · exact .inr (.inl he.2)
  · cases e <;> simp_all [Expr.children, Plain, Refined] <;> rcases ha with rfl | rfl <;> tauto
  · cases e with
    | differential inner =>
      obtain rfl : inner = .var X := he.resolve_right id
      obtain rfl := List.mem_singleton.1 ha
      exact .inr (.inr (.inl trivial))
    | scale k b =>
      simp only [Expr.children, List.mem_cons, List.not_mem_nil, or_false] at ha
      rcases ha with rfl | rfl
      · exact .inr (.inl he.1.1)
      · exact .inr (.inr (.inr (.inl (hcore he.2))))
    | matMul b c =>
      obtain ⟨hb, -, rfl⟩ := Core.plain_or_eq he
      simp only [Expr.children, List.mem_cons, List.not_mem_nil, or_false] at ha
      rcases ha with rfl | rfl
      · exact .inr (.inr (.inl hb))
      · exact .inr (.inr (.inr (.inl (.inl rfl))))
    | _ => rcases he with he | he <;> cases he
  · cases e <;> simp_all [Expr.children, Readable, Refined] <;> rcases ha with rfl | rfl <;> tauto

theorem Refined.result (he : Refined X e) (h : Retains X AtRight e r) : Refined X r := by
  rcases he with rfl | he | he | he | he
  · exact .inl (h.fixed trivial)
  · exact .inr (.inl (h.scalar he))
  · exact (h.plain he).imp_right fun hr => .inr (.inl hr)
  · exact (h.core places_atRight he).imp_right fun hr => .inr (.inr (.inl hr))
  · exact (h.readable he).imp_right fun hr => .inr (.inr (.inr hr))

/-- Once a differential is readable, every rule makes an expression lighter. -/
theorem weight_refined {stage : Stage} {m : RuleMatch S} (he : Refined X e)
    (hm : m ∈ ruleMatches e stage.rules) : m.output.weight .collecting < e.weight .collecting := by
  obtain ⟨hr, hmatch⟩ := mem_ruleMatches hm
  have hf := faces_of_matchAgainst hmatch
  have hinst := instantiate_of_matchAgainst hmatch
  have hfilled := RuleMatch.filled_output hm
  rcases he with he | he | he | he | he
  · exact absurd hm (not_mem_ruleMatches (.inl he))
  · exact absurd hm (not_mem_ruleMatches (.inr he))
  · rw [← hinst] at he
    rw [← hinst]
    exact (hfilled.descends_plain (Stage.plain_replacement hr he)).le.trans_lt
      (Stage.collecting_plain hr hf he)
  · have hno : ∀ {sides : List Side}, AtRight sides false → ¬ e.Multiple (Monomial X sides false) :=
      not_match_of_atRight hr hmatch
    refine absurd he fun he => ?_
    cases e with
    | scale k b =>
      exact he.2.elim (fun h => hno ⟨rfl, .inl rfl⟩ ⟨he.1, h⟩)
        fun h => hno ⟨rfl, .inr rfl⟩ ⟨he.1, h⟩
    | _ => exact he.elim (hno ⟨rfl, .inl rfl⟩) (hno ⟨rfl, .inr rfl⟩)
  · rw [← hinst] at he
    rw [← hinst]
    exact (hfilled.descends_traced (readable_replacement hr hf he).traced).le.trans_lt
      (Stage.collecting_readable hr hf he)

/-- All stages, once a differential is readable. -/
theorem respected_collecting (stage : Stage) :
    Respected (Refined X : Expr S → Prop) stage (Settling X AtRight .collecting) where
  operand := Refined.operand
  result he h := he.result h.retains
  trans := Settling.trans
  recalled h hr := eq_of_beq h ▸ hr
  self he := Settling.self he.handled
  rebuilt he := settling_of_rebuilt places_atRight he.handled
  rule he h hm := settling_of_rule (fun _ _ hp => .inr hp) hm
    (.inr (weight_refined (he.result h.retains) hm))

end Canonical

end TraceCalculus
