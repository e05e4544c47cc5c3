import TraceCalculus.Proofs.DoubleText
import TraceCalculus.Proofs.Doubles
import TraceCalculus.Proofs.Phrases

/-! # The text of an expression keeps its meaning

What comes from a source text by differentiation and canonicalization (`Expr.Obtained`) is written as
a text that is read again, and with exact scalars what is read has the value of what was written
(`Expr.read_text`). It need not be the same expression: its tree is that of the phrase
(`TraceCalculus.Proofs.Phrases`), and the constructors simplify it once more.
-/

set_option autoImplicit false

namespace TraceCalculus

open Decimal (IsNumeral)

variable {S : Type}

/-- A number is read from its text again, where a sign is read as a negation. -/
def Scalar.ReadsBack [Scalar S] (x : S) : Prop :=
  ∃ ds, IsNumeral ds ∧
    ((Scalar.text x).toList = ds ∧ Scalar.ofNumeral (.ofChars ds) = x ∨
      (Scalar.text x).toList = '-' :: ds ∧ -Scalar.ofNumeral (.ofChars ds) = x)

theorem Scalar.ReadsBack.isSigned [Scalar S] {x : S} (h : Scalar.ReadsBack x) :
    Expr.IsSigned x := by
  obtain ⟨ds, hds, ⟨htext, -⟩ | ⟨htext, -⟩⟩ := h
  · exact ⟨ds, hds, .inl htext⟩
  · exact ⟨ds, hds, .inr htext⟩

namespace Expr

section Obtained

variable [Scalar S]

/-- An expression that comes from source texts. What is read may be differentiated with respect to
any name, and what is obtained from it to any but that of a differential held fixed in it, which is a
constant. -/
inductive Obtained (declared : Declarations) : Expr S → Prop
  | read {source : String} {e : Expr S} (h : Expr.read declared source = .ok e) :
      Obtained declared e
  | readDerivative {source : String} {e : Expr S} (h : Expr.read declared source = .ok e)
      (wrt : String) (order : DiffOrder) : Obtained declared (e.derivative wrt order)
  | derivative {e : Expr S} (he : Obtained declared e) (wrt : String) (order : DiffOrder)
      (hwrt : .var wrt ∈ e.postOrder → heldDifferential? wrt = none) :
      Obtained declared (e.derivative wrt order)
  | canonicalize {e r : Expr S} (he : Obtained declared e) (options : Canonical.Options)
      (fuel : Nat) (hr : (Canonical.run options fuel e).outcome.result? = some r) :
      Obtained declared r

variable [NumericScalar S] {declared : Declarations} {e : Expr S}

theorem Obtained.named (h : Obtained declared e) : e.Named Held := by
  induction h with
  | read h => exact named_read h
  | @readDerivative _ a h wrt order =>
    have ha : a.Named fun _ => False := named_read h
    refine Named.derivative order (named_read h) fun hwrt => ?_
    have hvar := forall_postOrder_of_inherited Named.of_mem_children ha _ hwrt
    exact heldDifferential?_writable (hvar.resolve_right id)
  | derivative _ wrt order hwrt ih => exact ih.derivative order hwrt
  | canonicalize _ _ _ hr ih => exact Canonical.run_named ih hr

/-- The text of what is obtained is read. -/
theorem Obtained.exists_read_text (h : Obtained declared e)
    (hnumbers : e.Literals IsSigned) :
    ∃ f : Formula S, Formula.parse e.text = .ok f ∧ f.tree = e.phrase.tree ∧
      ∃ e', f.toExpr declared = .ok e' := by
  obtain ⟨f, hf, htree⟩ := parse_text_phrase h.named hnumbers
  exact ⟨f, hf, htree, Formula.exists_toExpr_iff.2 (htree ▸ sensible_phrase h.named)⟩

end Obtained

section Values

variable [ExactScalar S] {env : Environment S} {e : Expr S} {v : Value S}

/-- No sum or difference joins a scalar with a matrix. -/
def Unmixed (env : Environment S) : Expr S → Prop
  | .add a b | .sub a b =>
    a.Unmixed env ∧ b.Unmixed env ∧
      ∀ u v, a.eval env = .ok u → b.eval env = .ok v → u.isMatrix = v.isMatrix
  | .scale a b | .matMul a b => a.Unmixed env ∧ b.Unmixed env
  | .trace a | .transpose a => a.Unmixed env
  | _ => True

theorem means_enclose {p : Phrase S} (h : p.tree.Means env v) (enclosed : Bool) :
    (p.enclose enclosed).tree.Means env v := by
  cases enclosed with
  | false => exact h
  | true => exact h.paren

theorem means_phrase (hm : env.mode = .value) (hzero : (Scalar.ofNumeral ⟨0, 0⟩ : S) = 0)
    (hnames : e.Named Held) (hnumbers : e.Literals Scalar.ReadsBack)
    (hu : e.Unmixed env) (h : e.eval env = .ok v) : e.phrase.tree.Means env v := by
  have hnumbered (cs : List Char) : (Phrase.number cs : Phrase S).tree.Means env
      (.scalar (Scalar.ofNumeral (.ofChars cs))) := .number _
  have hread : Decimal.Numeral.ofChars ['0'] = ⟨0, 0⟩ := rfl
  induction e generalizing v with
  | var name =>
    have hv := Environment.lookup_eq_ok.1 h
    obtain hw | ⟨inner, hw, rfl⟩ := hnames
    · rw [phrase, matrixPhrase_eq hw]
      exact .symbol hv
    · rw [phrase, matrixPhrase_held]
      exact .differential rfl hv
  | scalarVar name => exact .symbol (Environment.lookup_eq_ok.1 h)
  | literal x =>
    cases h
    obtain ⟨ds, hds, ⟨htext, hx⟩ | ⟨htext, hx⟩⟩ := hnumbers x (.head _)
    · rw [phrase, htext, numberPhrase_eq hds, ← hx]
      exact .number _
    · have hneg := (hnumbered ds).neg
      rw [Value.scaleBy_scalar, neg_one_mul, hx] at hneg
      rw [phrase, htext]
      exact hneg
  | null =>
    cases h
    have hnumber := hnumbered ['0']
    rwa [hread, hzero] at hnumber
  | differential a _ =>
    obtain ⟨name, hname, hw⟩ := hnames
    have hv := (evalDifferential_value hm hname).symm.trans h
    rw [phrase, phrase_of_name? hname hw]
    exact .differential rfl (Environment.lookup_eq_ok.1 hv)
  | trace a ih =>
    obtain ⟨u, ha, hv⟩ := (eval_trace_ok hm).1 h
    exact .trace (.inl rfl) (ih hnames (hnumbers.of_mem_children (.head _)) hu ha) hv
  | transpose a ih =>
    obtain ⟨u, ha, rfl⟩ := eval_transpose_ok.1 h
    have hu := ih hnames (hnumbers.of_mem_children (.head _)) hu ha
    exact (means_enclose hu _).turned
  | add a b iha ihb =>
    obtain ⟨u, w, ha, hb, hv⟩ := eval_add_ok.1 h
    have hta := iha hnames.1 (hnumbers.of_mem_children (.head _)) hu.1 ha
    have htb := ihb hnames.2 (hnumbers.of_mem_children (.tail _ (.head _))) hu.2.1 hb
    exact (means_enclose hta _).graft_plus (means_enclose htb _)
      (Value.sum_iff.2 ⟨hu.2.2 u w ha hb, hv⟩)
  | sub a b iha ihb =>
    obtain ⟨u, w, ha, hb, hv⟩ := eval_sub_ok.1 h
    have hta := iha hnames.1 (hnumbers.of_mem_children (.head _)) hu.1 ha
    have htb := ihb hnames.2 (hnumbers.of_mem_children (.tail _ (.head _))) hu.2.1 hb
    -- what stands behind the minus sign is no sum, so nothing is grafted
    rw [phrase, needsBrackets_strict, Phrase.joined,
      (derives_product b.derives_phrase).graft_product (by decide)]
    exact (means_enclose hta _).minus (means_enclose htb _)
      (Value.difference_iff.2 ⟨hu.2.2 u w ha hb, hv⟩)
  | scale a b iha ihb =>
    obtain ⟨u, w, ha, hb, hv⟩ := eval_scale_ok.1 h
    have hta := iha hnames.1 (hnumbers.of_mem_children (.head _)) hu.1 ha
    have htb := ihb hnames.2 (hnumbers.of_mem_children (.tail _ (.head _))) hu.2 hb
    exact (means_enclose hta _).graft_times (means_enclose htb _) hv
  | matMul a b iha ihb =>
    obtain ⟨u, w, ha, hb, hv⟩ := eval_matMul_ok.1 h
    have hta := iha hnames.1 (hnumbers.of_mem_children (.head _)) hu.1 ha
    have htb := ihb hnames.2 (hnumbers.of_mem_children (.tail _ (.head _))) hu.2 hb
    exact (means_enclose hta _).graft_times (means_enclose htb _) hv

end Values

/-- The text of what comes from source texts by differentiation and canonicalization is read, if its
literals are finite; and with exact scalars what is read has the value of what was written. Where it
is the zero element, that value may be the zero of any type. -/
theorem read_text :
    (∀ (declared : Declarations) (e : Expr Float), Obtained declared e →
      (∀ x, .literal x ∈ e.postOrder → x.isFinite = true) →
        ∃ e' : Expr Float, Expr.read declared e.text = .ok e') ∧
    ∀ {S : Type} [ExactScalar S], (Scalar.ofNumeral ⟨0, 0⟩ : S) = 0 →
      ∀ (declared : Declarations) (e : Expr S), Obtained declared e →
        (∀ x, .literal x ∈ e.postOrder → Scalar.ReadsBack x) →
          ∃ e' : Expr S, Expr.read declared e.text = .ok e' ∧
            ∀ (env : Environment S) (v : Value S), env.mode = .value →
              (∀ name, declared.isScalar name = true →
                ∀ u, env.get? name = some u → u.isMatrix = false) →
              e.Unmixed env → e.eval env = .ok v →
                e'.eval env = .ok v ∨ e' = .null ∧ v.IsZero := by
  refine ⟨fun declared e he hfinite => ?_, fun hzero declared e he hnumbers => ?_⟩
  · obtain ⟨f, hf, -, e', he'⟩ := he.exists_read_text
      fun x hx => Decimal.text_of_isFinite (hfinite x hx)
    exact ⟨e', read_eq_ok.2 ⟨f, hf, he'⟩⟩
  · have hsigned : e.Literals IsSigned := fun x hx => (hnumbers x hx).isSigned
    obtain ⟨f, hf, htree, e', he'⟩ := he.exists_read_text hsigned
    refine ⟨e', read_eq_ok.2 ⟨f, hf, he'⟩, fun env v hm hscalar hu hv => ?_⟩
    have hmeans := means_phrase hm hzero he.named hnumbers hu hv
    obtain h | h := Formula.stands_toExpr hscalar he' (htree ▸ hmeans)
    · exact .inl (h.eval_eq hm)
    · exact .inr h

/-- The value of a square, whose second differential has a literal with a sign. -/
def negatedSquare : Expr Int :=
  .trace (.scale (.scale (.literal (-3)) (.scalarVar "k"))
    (.matMul (.transpose (.var "X")) (.var "X")))

/-- The second differential, in which one factor of each product is held fixed. -/
def heldSquares : Expr Int :=
  .trace (.scale (.scale (.literal (-3)) (.scalarVar "k"))
    (.add (.matMul (.transpose (.var "d(X)")) (.differential (.var "X")))
      (.matMul (.transpose (.differential (.var "X"))) (.var "d(X)"))))

/-- A direction with one row and two columns. -/
def rowDirection : Environment Int where
  values := [("k", .scalar 5), ("d(X)", .matrix (.ofFn 1 2 fun _ j => j.val + 1))]

theorem read_text_heldSquares :
    (∃ e e' : Expr Float, Expr.read {} "-0.1*X'" = .ok e ∧ Expr.read {} e.text = .ok e') ∧
    Expr.read (.declare {} "k") "Tr(X'*(-3*X*k))" = .ok negatedSquare ∧
    negatedSquare.derivative "X" .second = heldSquares ∧
    heldSquares.text = "Tr(-3*k*(d(X)'*d(X)+d(X)'*d(X)))" ∧
    ∃ e' : Expr Int, Expr.read (.declare {} "k") heldSquares.text = .ok e' ∧
      e'.text = "Tr(-6*k*d(X)'*d(X))" ∧ e'.eval rowDirection = .ok (.scalar (-150)) := by
  have hok : ∀ {ε α : Type} {x : Except ε α} {a : α}, x.toOption = some a → x = .ok a := by
    intro ε α x a h
    cases x <;> cases h
    rfl
  have hread : Expr.read (.declare {} "k") "Tr(X'*(-3*X*k))" = .ok negatedSquare :=
    hok (by decide +kernel)
  have hsecond : negatedSquare.derivative "X" .second = heldSquares := by decide +kernel
  have htext : heldSquares.text = "Tr(-3*k*(d(X)'*d(X)+d(X)'*d(X)))" := by decide +kernel
  refine ⟨?_, hread, hsecond, htext, ?_⟩
  · have hall : ((Expr.read {} "-0.1*X'").toOption.map fun e : Expr Float =>
        e.postOrder.all fun s => s.value?.all Float.isFinite) = some true := by
      decide +kernel
    obtain ⟨e, he, hall⟩ := Option.map_eq_some_iff.1 hall
    obtain ⟨e', he'⟩ := read_text.1 {} e (.read (hok he)) fun x hx => List.all_eq_true.1 hall _ hx
    exact ⟨e, e', hok he, he'⟩
  · have hobtained : Obtained (.declare {} "k") heldSquares :=
      hsecond ▸ .readDerivative hread "X" .second
    have hnumbers : ∀ x, .literal x ∈ heldSquares.postOrder → Scalar.ReadsBack x := by
      intro x hx
      obtain rfl : x = -3 := by simpa [heldSquares, postOrder] using hx
      exact ⟨['3'], .whole (by simp) (List.forall_mem_singleton.2 rfl), .inr ⟨rfl, rfl⟩⟩
    have hscalar : ∀ name, Declarations.isScalar (.declare {} "k") name = true →
        ∀ u, rowDirection.get? name = some u → u.isMatrix = false := by
      intro name hname u hu
      obtain rfl : name = "k" := by simpa using hname
      cases hu
      rfl
    have hunmixed : heldSquares.Unmixed rowDirection := by
      refine ⟨⟨trivial, trivial⟩, ⟨trivial, trivial⟩, ⟨trivial, trivial⟩, fun u v hu hv => ?_⟩
      cases hu
      cases hv
      rfl
    have heval : heldSquares.eval rowDirection = .ok (.scalar (-150)) := rfl
    obtain ⟨e', he', hvalue⟩ := read_text.2 rfl (.declare {} "k") heldSquares hobtained hnumbers
    have htext' : (Expr.read (.declare {} "k") heldSquares.text).toOption.map
        (text : Expr Int → String) = some "Tr(-6*k*d(X)'*d(X))" := by decide +kernel
    rw [he'] at htext'
    have htext' : e'.text = "Tr(-6*k*d(X)'*d(X))" := Option.some.inj htext'
    refine ⟨e', he', htext', (hvalue rowDirection _ rfl hscalar hunmixed heval).resolve_right ?_⟩
    rintro ⟨rfl, -⟩
    exact absurd htext' (by decide)

end Expr

end TraceCalculus
