import TraceCalculus.Proofs.Bulk
import TraceCalculus.Proofs.FormulaMeaning
import TraceCalculus.Proofs.Parsing
import TraceCalculus.Proofs.Words

/-! # The names of variables

A name can be written if a source text can have it for a variable (`Writable`). What is read from a
text has no other names; the second differential adds the names of differentials that are held
fixed (`Held`), such as `d(X)`, and nothing adds any other.

`Expr.Named P` says so of an expression: the names that cannot be written satisfy `P`, and stand for
matrices that no differential is taken of. The constructors keep that, and so do differentiation
(`Expr.Named.derivative`), where what it is taken with respect to can be written, and runs
(`Canonical.run_named`).
-/

set_option autoImplicit false

namespace TraceCalculus

/-- A name that a variable can have in a source text. -/
def Writable (name : String) : Prop := IsName name.toList ∧ name ∉ reservedNames

/-- The name of the differential of a variable, held fixed. -/
def Held (name : String) : Prop := ∃ inner, Writable inner ∧ name = "d(" ++ inner ++ ")"

theorem Writable.ne_held {name : String} (h : Writable name) (inner : String) :
    name ≠ "d(" ++ inner ++ ")" := by
  rintro rfl
  obtain ⟨c, rest, hchars, -, hrest⟩ := h.1
  simp only [String.toList_append] at hchars
  obtain ⟨rfl, rfl⟩ := List.cons.inj hchars
  exact absurd (hrest '(' (.head _)) (by decide)

namespace Expr

variable {S : Type}

theorem heldDifferential?_eq_some {name inner : String} :
    heldDifferential? name = some inner ↔ name = "d(" ++ inner ++ ")" := by
  constructor
  · intro h
    unfold heldDifferential? at h
    split at h
    · next rest hchars =>
      split at h <;> cases h
      next hlast =>
        apply String.toList_inj.1
        simp [hchars, List.dropLast_append_getLast? _ hlast]
    · cases h
  · rintro rfl
    have hchars : ("d(" ++ inner ++ ")").toList = 'd' :: '(' :: (inner.toList ++ [')']) := by simp
    simp [heldDifferential?, hchars]

theorem heldDifferential?_writable {name : String} (h : Writable name) :
    heldDifferential? name = none := by
  cases hheld : heldDifferential? name with
  | none => rfl
  | some inner => exact absurd (heldDifferential?_eq_some.1 hheld) (h.ne_held inner)

/-- The names of scalars and of variables that differentials are taken of can be written, and those
of matrices can be written or satisfy `P`. -/
def Named (P : String → Prop) : Expr S → Prop
  | .var name => Writable name ∨ P name
  | .scalarVar name => Writable name
  | .literal _ | .null => True
  | .differential inner => ∃ name, inner.name? = some name ∧ Writable name
  | .add a b | .sub a b | .scale a b | .matMul a b => a.Named P ∧ b.Named P
  | .trace a | .transpose a => a.Named P

variable {P Q : String → Prop} {a b c e : Expr S}

theorem named_of_name? {name : String} (h : e.name? = some name) (hw : Writable name) :
    e.Named P := by
  cases e <;> cases h
  · exact .inl hw
  · exact hw

theorem Named.of_mem_children (he : e.Named P) (ha : a ∈ e.children) : a.Named P := by
  cases e <;> simp only [children, List.mem_cons, List.not_mem_nil, or_false] at ha
  case differential =>
    obtain ⟨name, hname, hw⟩ := he
    rw [ha]
    exact named_of_name? hname hw
  case trace | transpose =>
    rw [ha]
    exact he
  case add | sub | scale | matMul =>
    rcases ha with rfl | rfl
    · exact he.1
    · exact he.2

/-- The names that cannot be written may be known more of. -/
theorem Named.imp (h : e.Named P)
    (hPQ : ∀ name, .var name ∈ e.postOrder → P name → Writable name ∨ Q name) : e.Named Q := by
  induction e with
  | var name => exact h.elim .inl (hPQ name (.head _))
  | scalarVar | literal | null | differential => exact h
  | add a b iha ihb | sub a b iha ihb | scale a b iha ihb | matMul a b iha ihb =>
    exact ⟨iha h.1 fun name hn => hPQ name (by simp [postOrder, hn]),
      ihb h.2 fun name hn => hPQ name (by simp [postOrder, hn])⟩
  | trace a ih | transpose a ih => exact ih h fun name hn => hPQ name (by simp [postOrder, hn])

/-! ## Named operands give named results -/

theorem Transposition.named (h : Transposition a c) (ha : a.Named P) : c.Named P := by
  cases h with
  | null => trivial
  | turnBack | trace | scalar | transpose => exact ha

theorem Named.transposed (ha : a.Named P) : a.transposed.Named P :=
  (transposition_transposed a).named ha

theorem Tracing.named (h : Tracing a c) (ha : a.Named P) : c.Named P := by
  cases h with
  | null => trivial
  | scalar | trace => exact ha

theorem Named.traced (ha : a.Named P) : a.traced.Named P := (tracing_traced a).named ha

theorem Named.mapLiterals {T : Type} {f : Nat → S → T} (h : e.Named P) (start : Nat) :
    (e.mapLiterals f start).Named P := by
  induction e generalizing start with
  | var | scalarVar | literal | null => exact h
  | differential a =>
    obtain ⟨name, hname, hw⟩ := h
    refine ⟨name, ?_, hw⟩
    cases a <;> cases hname <;> rfl
  | add a b iha ihb | sub a b iha ihb | scale a b iha ihb | matMul a b iha ihb =>
    exact ⟨iha h.1 _, ihb h.2 _⟩
  | trace a ih | transpose a ih => exact ih h _

variable [Scalar S] [NumericScalar S]

theorem Product.named (h : Product a b c) (ha : a.Named P) (hb : b.Named P) : c.Named P := by
  induction h with
  | nullLeft | nullRight | fold => trivial
  | oneLeft => exact hb
  | oneRight => exact ha
  | swap _ _ _ _ ih => exact ih trivial ha
  | mergeLeft _ _ _ _ iht ihc => exact ihc (iht ha hb.1) hb.2
  | scaleLeft =>
    rw [asOperand_numeric]
    exact ⟨ha, hb⟩
  | mergeRight _ _ _ _ _ iht ihc => exact ihc (iht ha.1 hb) ha.2
  | scaleRight => exact ⟨hb, ha⟩
  | mergeBoth _ _ _ _ _ _ iht ihm ihc => exact ihc (iht ha.1 hb.1) (ihm ha.2 hb.2)
  | hoistLeft _ _ _ _ _ _ ihm ihc => exact ihc ha.1 (ihm ha.2 hb)
  | hoistRight _ _ _ _ _ _ ihm ihc => exact ihc hb.1 (ihm ha hb.2)
  | matMul => exact ⟨ha, hb⟩

theorem Named.times (ha : a.Named P) (hb : b.Named P) : (a * b).Named P :=
  (product_times a b).named ha hb

theorem Plus.named (h : Plus a b c) (ha : a.Named P) (hb : b.Named P) : c.Named P := by
  cases h with
  | nullLeft => exact hb
  | nullRight => exact ha
  | fold => trivial
  | double _ _ hc => exact hc.named trivial ha
  | add =>
    rw [asOperand_numeric, asOperand_numeric]
    exact ⟨ha, hb⟩

theorem Named.plus (ha : a.Named P) (hb : b.Named P) : (a + b).Named P :=
  (plus_add a b).named ha hb

theorem Minus.named (h : Minus a b c) (ha : a.Named P) (hb : b.Named P) : c.Named P := by
  cases h with
  | nullRight => exact ha
  | nullLeft _ hc => exact hc.named trivial hb
  | cancel | fold => trivial
  | sub =>
    rw [asOperand_numeric, asOperand_numeric]
    exact ⟨ha, hb⟩

theorem Named.minus (ha : a.Named P) (hb : b.Named P) : (a - b).Named P :=
  (minus_sub a b).named ha hb

theorem Named.negated (ha : a.Named P) : (-a).Named P := Named.times (a := .literal (-1)) trivial ha

/-! ## Differentials -/

/-- A differential is taken of no name that cannot be written. -/
theorem Named.differentiate {wrt : String} (hwrt : ¬ P wrt) (h : e.Named P) :
    (e.differentiate wrt).Named P := by
  induction e with
  | literal | null | differential => trivial
  | scalarVar name => exact ⟨name, rfl, h⟩
  | var name =>
    unfold Expr.differentiate
    split
    · next heq => exact ⟨name, rfl, h.resolve_right (heq ▸ hwrt)⟩
    · trivial
  | add a b iha ihb => exact (iha h.1).plus (ihb h.2)
  | sub a b iha ihb => exact (iha h.1).minus (ihb h.2)
  | scale a b _ ihb => exact h.1.times (ihb h.2)
  | matMul a b iha ihb => exact ((iha h.1).times h.2).plus (h.1.times (ihb h.2))
  | trace a ih => exact (ih h).traced
  | transpose a ih => exact (ih h).transposed

omit [NumericScalar S] in
theorem Named.hold {wrt : String} (hwrt : Writable wrt → P ("d(" ++ wrt ++ ")"))
    (h : e.Named P) : (e.hold wrt).Named P := by
  induction e with
  | var | scalarVar | null => exact h
  | literal => trivial
  | differential a =>
    obtain ⟨name, hname, hw⟩ := h
    unfold Expr.hold
    split
    · next heq =>
      obtain rfl := Option.some.inj (hname.symm.trans heq)
      have htext : (Expr.differential a).text = "d(" ++ name ++ ")" := by
        cases a <;> cases hname <;> rfl
      rw [htext]
      exact .inr (hwrt hw)
    · refine ⟨name, ?_, hw⟩
      cases a <;> cases hname <;> rfl
  | add a b iha ihb | sub a b iha ihb | scale a b iha ihb | matMul a b iha ihb =>
    exact ⟨iha h.1, ihb h.2⟩
  | trace a ih | transpose a ih => exact ih h

/-- What is differentiated with respect to a name that is not held has no names but those that can
be written and those that are held. -/
theorem Named.derivative {wrt : String} (order : DiffOrder) (h : e.Named Held)
    (hwrt : .var wrt ∈ e.postOrder → heldDifferential? wrt = none) :
    (e.derivative wrt order).Named Held := by
  let Q : String → Prop := fun name => Held name ∧ name ≠ wrt
  have hQ : ¬ Q wrt := fun h => h.2 rfl
  have hheld : Writable wrt → Q ("d(" ++ wrt ++ ")") := by
    refine fun hw => ⟨⟨wrt, hw, rfl⟩, fun heq => ?_⟩
    have hlength := congrArg (fun name => name.toList.length) heq
    simp at hlength
    omega
  have he : e.Named Q := by
    refine h.imp fun name hname hn => .inr ⟨hn, ?_⟩
    rintro rfl
    obtain ⟨inner, -, rfl⟩ := hn
    have hnone := hwrt hname
    rw [heldDifferential?_eq_some.2 rfl] at hnone
    cases hnone
  have hd : (e.derivative wrt order).Named Q := by
    cases order with
    | first => exact he.differentiate hQ
    | second => exact (((he.differentiate hQ).hold hheld).mapLiterals 0).differentiate hQ
  exact hd.imp fun _ _ h => .inr h.1

/-! ## Rules and formulas -/

theorem named_subst {σ : Assignment S} (h : σ.All (Named P)) {r : Expr S} (hr : r.Named P)
    (hd : r.hasDifferential = false) : (r.subst σ).Named P := by
  have hget : ∀ (name : String) (e : Expr S), e.Named P → ((σ.get? name).getD e).Named P := by
    intro name e he
    cases hn : σ.get? name with
    | none => exact he
    | some x => exact h name x hn
  have hboth : ∀ {a b : Expr S}, (a.hasDifferential || b.hasDifferential) = false →
      a.hasDifferential = false ∧ b.hasDifferential = false := Bool.or_eq_false_iff.1
  induction r with
  | var name => exact hget name _ hr
  | scalarVar name => exact hget name _ hr
  | literal | null => trivial
  | differential a => cases hd
  | add a b iha ihb => exact (iha hr.1 (hboth hd).1).plus (ihb hr.2 (hboth hd).2)
  | sub a b iha ihb => exact (iha hr.1 (hboth hd).1).minus (ihb hr.2 (hboth hd).2)
  | scale a b iha ihb | matMul a b iha ihb =>
    exact (iha hr.1 (hboth hd).1).times (ihb hr.2 (hboth hd).2)
  | trace a ih => exact (ih hr hd).traced
  | transpose a ih => exact (ih hr hd).transposed

end Expr

open TraceCalculus.Expr (Named)

variable {S : Type} [Scalar S]

omit [Scalar S] in
/-- The names of the rules can be written. -/
theorem Stage.named_replacement {P : String → Prop} {stage : Stage} {rule : Rule S}
    (hr : rule ∈ stage.rules) : rule.replacement.Named P := by
  have hname : ∀ c : Char, Token.isNameStart c = true → String.ofList [c] ∉ reservedNames →
      Writable (String.ofList [c]) :=
    fun c hc hfree => ⟨⟨c, [], String.toList_ofList, hc, nofun⟩, hfree⟩
  have hA : Writable "A" := hname 'A' (by decide) (by decide)
  have hB : Writable "B" := hname 'B' (by decide) (by decide)
  have hC : Writable "C" := hname 'C' (by decide) (by decide)
  have hs : Writable "s" := hname 's' (by decide) (by decide)
  have hu : Writable "u" := hname 'u' (by decide) (by decide)
  refine forall_rules (P := fun rule => rule.replacement.Named P) ?_ ?_ ?_ hr <;>
    simp [isolating, normalizing, collecting, Named, hA, hB, hC, hs, hu]

namespace Formula

/-- The names of the variables in a formula. -/
def Tree.names {S : Type} : Tree S → List String
  | .number _ => []
  | .symbol name => [name]
  | .paren t | .neg t | .transpose t | .call _ t => t.names
  | .binary _ a b => a.names ++ b.names

theorem Derives.mem_of_mem_names {l : Level} {ws : List Word} {t : Tree S} (h : Derives l ws t)
    {name : String} (hname : name ∈ t.names) : ⟨.name, name⟩ ∈ ws := by
  induction h with
  | ofProduct _ ih | ofSigned _ ih | ofOperand _ ih | ofAtom _ ih => exact ih hname
  | plus _ _ _ iha ihb | minus _ _ _ iha ihb | times _ _ _ iha ihb =>
    rcases List.mem_append.1 hname with hname | hname
    · exact List.mem_append_left _ (iha hname)
    · exact List.mem_append_right _ (.tail _ (ihb hname))
  | neg _ _ ih | quote _ _ ih | dot _ _ ih | paren _ _ _ ih | call _ _ _ _ ih => simp [ih hname]
  | number => cases hname
  | symbol => exact List.mem_singleton.2 (congrArg _ (List.mem_singleton.1 hname))

variable {P : String → Prop} {declared : Declarations} {e : Expr S}

omit [Scalar S] in
theorem Tree.mem_names_of_symbol? {t : Tree S} {name : String} (h : t.symbol? = some name) :
    name ∈ t.names := by
  induction t with
  | symbol => exact List.mem_singleton.2 (Option.some.inj h).symm
  | paren t ih => exact ih h
  | _ => cases h

theorem Tree.Denotes.named [NumericScalar S] {t : Tree S} (h : t.Denotes declared e)
    (hnames : ∀ name ∈ t.names, IsName name.toList) : e.Named P := by
  induction h with
  | number => trivial
  | symbol hn => exact Expr.named_of_name? (name?_named declared _) ⟨hnames _ (.head _), hn⟩
  | paren _ ih => exact ih hnames
  | neg _ ih => exact (ih hnames).negated
  | transpose _ ih => exact (ih hnames).transposed
  | binary op _ _ iha ihb =>
    have ha := iha (fun name hn => hnames name (List.mem_append_left _ hn))
    have hb := ihb (fun name hn => hnames name (List.mem_append_right _ hn))
    cases op with
    | plus => exact ha.plus hb
    | minus => exact ha.minus hb
    | times => exact ha.times hb
  | trace _ _ ih => exact (ih hnames).traced
  | @differential t name ht hn =>
    have hmem : name ∈ t.names := Tree.mem_names_of_symbol? ht
    exact ⟨name, name?_named declared name, hnames name hmem, hn⟩

theorem named_toExpr [NumericScalar S] {f : Formula S}
    (hnames : ∀ name ∈ f.tree.names, IsName name.toList) (h : f.toExpr declared = .ok e) :
    e.Named P :=
  (toExpr_eq_ok.1 h).named hnames

end Formula

variable [NumericScalar S] {P : String → Prop}

theorem Expr.named_read {declared : Declarations} {source : String} {e : Expr S}
    (h : Expr.read declared source = .ok e) : e.Named P := by
  obtain ⟨f, hf, he⟩ := Expr.read_eq_ok.1 h
  have hnames : ∀ name ∈ f.tree.names, IsName name.toList := fun name hn =>
    Word.isName_of_mem_ofSource ((Formula.derives_of_parse hf).mem_of_mem_names hn)
  exact Formula.named_toExpr hnames he

/-! ## Runs -/

namespace Canonical

variable {options : Options} {e r : Expr S}

/-- What a stage makes of a named expression is named, and a variable stays as it is. -/
def KeepsNames (P : String → Prop) (e r : Expr S) : Prop :=
  r.Named P ∧ ∀ name, e.name? = some name → r.name? = some name

theorem named_of_rebuilt (he : e.Named P) (h : Rebuilt (KeepsNames P) e r) : r.Named P := by
  cases h with
  | var | scalarVar | literal | null => exact he
  | differential ha =>
    obtain ⟨name, hname, hw⟩ := he
    rw [Expr.asOperand_numeric]
    exact ⟨name, ha.2 name hname, hw⟩
  | add ha hb => exact ha.1.plus hb.1
  | sub ha hb => exact ha.1.minus hb.1
  | scale ha hb | matMul ha hb => exact ha.1.times hb.1
  | trace ha => exact ha.1.traced
  | transpose ha => exact ha.1.transposed

theorem named_output {stage : Stage} {m : RuleMatch S} (he : e.Named P)
    (hm : m ∈ ruleMatches e stage.rules) : m.output.Named P := by
  obtain ⟨hr, hmatch⟩ := mem_ruleMatches hm
  have hσ : Assignment.All (Named P) ([] : Assignment S) := nofun
  rw [m.output_eq]
  exact Expr.named_subst (hσ.matchFrom Named.of_mem_children he hmatch)
    (Stage.named_replacement hr) (Stage.hasDifferential_replacement hr)

/-- No rule is about a variable. -/
theorem name?_of_mem_ruleMatches {stage : Stage} {m : RuleMatch S}
    (hm : m ∈ ruleMatches e stage.rules) : e.name? = none := by
  have hkind := Stage.kind_of_mem_ruleMatches hm
  cases e <;> first | rfl | simp [Expr.kind] at hkind

theorem respected_named (stage : Stage) :
    Respected (fun e : Expr S => e.Named P) stage (KeepsNames P) where
  operand h ha := h.of_mem_children ha
  result _ h := h.1
  trans h h' := ⟨h'.1, fun name hname => h'.2 name (h.2 name hname)⟩
  recalled heq h := by
    refine ⟨h.1, fun name hname => h.2 name ?_⟩
    cases Expr.Congruent.of_beq heq <;> exact hname
  self _ h := ⟨h.1, fun _ hname => hname⟩
  rebuilt hW h := ⟨named_of_rebuilt hW h, fun name hname => by
    cases h <;> first | exact hname | cases hname⟩
  rule _ h hm := ⟨named_output h.1 hm, fun name hname => by
    rw [name?_of_mem_ruleMatches hm] at hname
    cases hname⟩

theorem run_named {fuel : Nat} (he : e.Named P)
    (hr : (run options fuel e).outcome.result? = some r) : r.Named P :=
  (Respected.run respected_named he hr).1

end Canonical

end TraceCalculus
