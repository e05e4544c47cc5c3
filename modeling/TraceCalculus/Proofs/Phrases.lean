import TraceCalculus.Expr.Printer
import TraceCalculus.Proofs.Names
import TraceCalculus.Proofs.Printing

/-! # Expressions as phrases

The text of an expression is that of a phrase (`Expr.phrase`): words of a formula together with the
tree that they have (`Expr.derives_phrase`). It is not the tree of the expression. On the right of
`+` and `*` what binds as tightly stands without brackets and is grafted onto the operand on the left
(`Formula.Tree.graft`), the sign of a negative number is a minus that comes before everything, and
also before a transposition (`Formula.Tree.turned`), and a differential that is held fixed reads as
one that is not.
-/

set_option autoImplicit false

namespace TraceCalculus

open Decimal (IsNumeral)

variable {S : Type}

namespace Formula

/-! ## Grafts -/

namespace Tree

/-- The formula `a` followed by `op` and another formula without brackets. -/
def graft (op : Operator) (a : Tree S) : Tree S → Tree S
  | .binary op' b c =>
    if op = .times ↔ op' = .times then .binary op' (a.graft op b) c
    else .binary op a (.binary op' b c)
  | t => .binary op a t

/-- A formula followed by the mark of a transposition without brackets. -/
def turned : Tree S → Tree S
  | .neg t => .neg t.turned
  | t => .transpose t

theorem graft_eq {op : Operator} {a t : Tree S}
    (h : ∀ op' b c, t = .binary op' b c → ¬ (op = .times ↔ op' = .times)) :
    a.graft op t = .binary op a t := by
  cases t with
  | binary op' b c => exact if_neg (h op' b c rfl)
  | _ => rfl

theorem turned_eq {t : Tree S} (h : ∀ a, t ≠ .neg a) : t.turned = .transpose t := by
  cases t with
  | neg a => exact absurd rfl (h a)
  | _ => rfl

theorem Sensible.graft {op : Operator} {a b : Tree S} (ha : a.Sensible) (hb : b.Sensible) :
    (a.graft op b).Sensible := by
  induction b with
  | binary op' b c ihb =>
    unfold Tree.graft
    split
    · exact ⟨ihb hb.1, hb.2⟩
    · exact ⟨ha, hb⟩
  | _ => exact ⟨ha, hb⟩

theorem Sensible.turned {t : Tree S} (h : t.Sensible) : t.turned.Sensible := by
  induction t with
  | neg t ih => exact ih h
  | _ => exact h

end Tree

section Derives

variable [Scalar S] {us vs ws : List Word} {a b t : Tree S} {op : Operator}

theorem Derives.not_signed_binary : ¬ Derives .signed ws (.binary op a b) := by
  intro h
  cases h with
  | ofOperand h => cases h with | ofAtom h => cases h

theorem Derives.product_binary (h : Derives .product ws (.binary op a b)) : op = .times := by
  cases h with
  | ofSigned h => exact absurd h not_signed_binary
  | times => rfl

theorem Derives.not_operand_neg : ¬ Derives .operand ws (.neg t) := by
  intro h
  cases h with | ofAtom h => cases h

/-- A product stands behind a sign as it is. -/
theorem Derives.graft_product (h : Derives .product ws b) (hop : op ≠ .times) :
    a.graft op b = .binary op a b :=
  Tree.graft_eq fun _ _ _ hb hiff => hop (hiff.2 (product_binary (hb ▸ h)))

theorem Derives.graft_sum (ha : Derives .sum us a) (hb : Derives .sum vs b) (hop : op ≠ .times) :
    Derives .sum (us ++ op.word :: vs) (a.graft op b) := by
  generalize hl : Level.sum = l at hb
  induction hb with
  | ofProduct hb =>
    rw [hb.graft_product hop]
    cases op with
    | plus => exact ha.plus "+" hb
    | minus => exact ha.minus "-" hb
    | times => exact absurd rfl hop
  | plus sign _ hc ih =>
    rw [← List.cons_append, ← List.append_assoc]
    unfold Tree.graft
    rw [if_pos (by simpa using hop)]
    exact (ih hl).plus sign hc
  | minus sign _ hc ih =>
    rw [← List.cons_append, ← List.append_assoc]
    unfold Tree.graft
    rw [if_pos (by simpa using hop)]
    exact (ih hl).minus sign hc
  | _ => cases hl

theorem Derives.graft_times (ha : Derives .product us a) (hb : Derives .product vs b) :
    Derives .product (us ++ Operator.times.word :: vs) (a.graft .times b) := by
  generalize hl : Level.product = l at hb
  induction hb with
  | ofSigned hb =>
    rw [Tree.graft_eq fun _ _ _ heq _ => absurd (heq ▸ hb) not_signed_binary]
    exact ha.times "*" hb
  | times sign _ hc ih =>
    rw [← List.cons_append, ← List.append_assoc]
    exact (ih hl).times sign hc
  | _ => cases hl

theorem Derives.turned (h : Derives .signed ws t) :
    Derives .signed (ws ++ [⟨.quote, "'"⟩]) t.turned := by
  generalize hl : Level.signed = l at h
  induction h with
  | ofOperand h =>
    rw [Tree.turned_eq fun _ heq => not_operand_neg (heq ▸ h)]
    exact (h.quote "'").ofOperand
  | neg sign _ ih => exact (ih hl).neg sign
  | _ => cases hl

end Derives

section Means

variable [ExactScalar S] {env : Environment S} {a b t : Tree S} {u v w : Value S}

open TraceCalculus.Formula.Tree (Means)

theorem Tree.Means.graft_plus (ha : Means env a u) (hb : Means env b v) (h : Value.Sum u v w) :
    Means env (a.graft .plus b) w := by
  induction b generalizing v w with
  | binary op b c ihb =>
    cases hb with
    | plus hb hc h' =>
      obtain ⟨z, hz, hw⟩ := h'.assoc_left h
      exact .plus (ihb hb hz) hc hw
    | minus hb hc h' =>
      obtain ⟨z, hz, hw⟩ := h'.assoc_left h
      exact .minus (ihb hb hz) hc hw
    | times hb hc h' => exact .plus ha (.times hb hc h') h
  | _ => exact .plus ha hb h

theorem Tree.Means.graft_times (ha : Means env a u) (hb : Means env b v) (h : u.mul v = .ok w) :
    Means env (a.graft .times b) w := by
  induction b generalizing v w with
  | binary op b c ihb =>
    cases hb with
    | plus hb hc h' => exact .times ha (.plus hb hc h') h
    | minus hb hc h' => exact .times ha (.minus hb hc h') h
    | times hb hc h' =>
      obtain ⟨z, hz, hw⟩ := Value.mul_assoc_left h' h
      exact .times (ihb hb hz) hc hw
  | _ => exact .times ha hb h

theorem Tree.Means.turned (h : Means env t v) : Means env t.turned v.transpose := by
  induction t generalizing v with
  | neg t ih =>
    cases h with
    | neg h =>
      rw [Value.transpose_scaleBy]
      exact (ih h).neg
  | _ => exact .transpose h

end Means

end Formula

/-! ## Phrases -/

/-- Words and the tree of the formula they make up. -/
structure Phrase (S : Type) where
  words : List Word
  tree : Formula.Tree S

namespace Phrase

/-- A name. -/
def symbol (name : String) : Phrase S := ⟨[⟨.name, name⟩], .symbol name⟩

/-- A numeral. -/
def number [Scalar S] (cs : List Char) : Phrase S :=
  ⟨[⟨.number, String.ofList cs⟩], .number (Scalar.ofNumeral (.ofChars cs))⟩

/-- A minus sign and a phrase. -/
def neg (p : Phrase S) : Phrase S := ⟨⟨.minus, "-"⟩ :: p.words, .neg p.tree⟩

/-- A phrase, in brackets if it is `enclosed`. -/
def enclose (enclosed : Bool) (p : Phrase S) : Phrase S :=
  if enclosed then ⟨Word.bracketed p.words, .paren p.tree⟩ else p

/-- A function of a phrase. -/
def call (name : String) (p : Phrase S) : Phrase S :=
  ⟨⟨.name, name⟩ :: Word.bracketed p.words, .call name p.tree⟩

/-- A phrase and the mark of a transposition. -/
def turned (p : Phrase S) : Phrase S := ⟨p.words ++ [⟨.quote, "'"⟩], p.tree.turned⟩

/-- Two phrases with an operator between them. -/
def joined (op : Operator) (p q : Phrase S) : Phrase S :=
  ⟨p.words ++ op.word :: q.words, p.tree.graft op q.tree⟩

end Phrase

namespace Expr

variable [Scalar S]

/-- The phrase of a number. Its sign is a word of its own. -/
def numberPhrase (text : List Char) : Phrase S :=
  match text with
  | '-' :: cs => (Phrase.number cs).neg
  | cs => .number cs

/-- The phrase of the name of a matrix, which may be the text of a differential. -/
def matrixPhrase (name : String) : Phrase S :=
  match heldDifferential? name with
  | some inner => .call "d" (.symbol inner)
  | none => .symbol name

/-- The phrase that the text of an expression is. -/
@[simp] def phrase : Expr S → Phrase S
  | .var name => matrixPhrase name
  | .scalarVar name => .symbol name
  | .literal value => numberPhrase (Scalar.text value).toList
  | .null => .number ['0']
  | .differential inner => .call "d" inner.phrase
  | .trace inner => .call "Tr" inner.phrase
  | .transpose inner => (inner.phrase.enclose (inner.needsBrackets 1 false)).turned
  | .add lhs rhs =>
    .joined .plus (lhs.phrase.enclose (lhs.needsBrackets 4 false))
      (rhs.phrase.enclose (rhs.needsBrackets 4 false))
  | .sub lhs rhs =>
    .joined .minus (lhs.phrase.enclose (lhs.needsBrackets 4 false))
      (rhs.phrase.enclose (rhs.needsBrackets 4 true))
  | .scale lhs rhs | .matMul lhs rhs =>
    .joined .times (lhs.phrase.enclose (lhs.needsBrackets 3 false))
      (rhs.phrase.enclose (rhs.needsBrackets 3 false))

/-! ## The words of a phrase -/

omit [Scalar S] in
theorem spell_enclose {p : Phrase S} {s : String} (h : Word.spell p.words = s.toList)
    (enclosed : Bool) :
    Word.spell (p.enclose enclosed).words = (Expr.enclose enclosed s).toList := by
  cases enclosed <;> simp [Phrase.enclose, Expr.enclose, Word.bracketed, h]

/-- The text of an expression is that of its phrase. -/
theorem spell_phrase (e : Expr S) : Word.spell e.phrase.words = e.text.toList := by
  induction e with
  | var name =>
    simp only [phrase, matrixPhrase, text]
    split
    · next inner heq =>
      rw [heldDifferential?_eq_some.1 heq]
      simp [Phrase.call, Phrase.symbol, Word.bracketed]
    · simp [Phrase.symbol]
  | scalarVar => simp [phrase, Phrase.symbol, text]
  | literal x =>
    simp only [phrase, numberPhrase, text]
    split
    · next cs heq => simp [Phrase.neg, Phrase.number, heq]
    · simp [Phrase.number]
  | null => simp [phrase, Phrase.number, text]
  | differential a ih | trace a ih => simp [phrase, Phrase.call, Word.bracketed, text, ih]
  | transpose a ih => simp [phrase, Phrase.turned, text, spell_enclose ih]
  | add a b iha ihb | sub a b iha ihb | scale a b iha ihb | matMul a b iha ihb =>
    simp [phrase, Phrase.joined, text, spell_enclose iha, spell_enclose ihb, Operator.word]

theorem numberPhrase_eq {ds : List Char} (h : IsNumeral ds) :
    (numberPhrase ds : Phrase S) = .number ds := by
  unfold numberPhrase
  split
  · exact absurd h.isDigit_head (by decide)
  · rfl

omit [Scalar S] in
theorem matrixPhrase_eq {name : String} (h : Writable name) :
    (matrixPhrase name : Phrase S) = .symbol name := by
  rw [matrixPhrase, heldDifferential?_writable h]

omit [Scalar S] in
theorem matrixPhrase_held (inner : String) :
    (matrixPhrase ("d(" ++ inner ++ ")") : Phrase S) = .call "d" (.symbol inner) := by
  rw [matrixPhrase, heldDifferential?_eq_some.2 rfl]

/-- The literals of an expression satisfy `P`. -/
def Literals (P : S → Prop) (e : Expr S) : Prop := ∀ x, .literal x ∈ e.postOrder → P x

omit [Scalar S] in
theorem Literals.of_mem_children {P : S → Prop} {a e : Expr S} (h : e.Literals P)
    (ha : a ∈ e.children) : a.Literals P :=
  fun x hx => h x (mem_postOrder_of_mem_children ha hx)

/-- The literal is written as a numeral, with a minus sign or without. -/
def IsSigned (x : S) : Prop :=
  ∃ ds, IsNumeral ds ∧ ((Scalar.text x).toList = ds ∨ (Scalar.text x).toList = '-' :: ds)

variable {e : Expr S}

/-- A variable that a differential is taken of is written with its name. -/
theorem phrase_of_name? {name : String} (h : e.name? = some name) (hw : Writable name) :
    e.phrase = .symbol name := by
  cases e <;> cases h
  · exact matrixPhrase_eq hw
  · rfl

omit [Scalar S] in
theorem legible_enclose {p : Phrase S} (h : Word.Legible p.words) (enclosed : Bool) :
    Word.Legible (p.enclose enclosed).words := by
  cases enclosed with
  | false => exact h
  | true => exact h.bracketed

/-- The words of a phrase do not run into each other, if the names can be written or are held and
the numbers are written as numerals. -/
theorem legible_phrase (hnames : e.Named Held)
    (hnumbers : e.Literals IsSigned) :
    Word.Legible e.phrase.words := by
  have hsymbol : ∀ {name : String}, IsName name.toList →
      Word.Legible (Phrase.symbol name : Phrase S).words :=
    fun hname => Word.legible_singleton hname
  have hnumber : ∀ {ds : List Char}, IsNumeral ds →
      Word.Legible (Phrase.number ds : Phrase S).words := by
    intro ds hds
    rw [← String.toList_ofList (l := ds)] at hds
    exact Word.legible_singleton hds
  have hd : IsName "d".toList := ⟨'d', [], rfl, by decide, nofun⟩
  have hTr : IsName "Tr".toList := ⟨'T', ['r'], rfl, by decide, by simp; decide⟩
  induction e with
  | var name =>
    obtain hw | ⟨inner, hw, rfl⟩ := hnames
    · rw [phrase, matrixPhrase_eq hw]
      exact hsymbol hw.1
    · rw [phrase, matrixPhrase_held]
      exact (hsymbol hw.1).called hd
  | scalarVar name => exact hsymbol hnames.1
  | literal x =>
    obtain ⟨ds, hds, heq | heq⟩ := hnumbers x (.head _)
    · rw [phrase, heq, numberPhrase_eq hds]
      exact hnumber hds
    · rw [phrase, heq]
      exact (hnumber hds).sign_cons Word.isSign_minus
  | null => exact hnumber (.whole (by simp) (List.forall_mem_singleton.2 rfl))
  | differential a ih =>
    have ha := ih (hnames.of_mem_children (.head _)) (hnumbers.of_mem_children (.head _))
    exact ha.called hd
  | trace a ih => exact (ih hnames (hnumbers.of_mem_children (.head _))).called hTr
  | transpose a ih =>
    have ha := ih hnames (hnumbers.of_mem_children (.head _))
    exact (legible_enclose ha _).sign Word.isSign_quote Word.legible_nil
  | add a b iha ihb | sub a b iha ihb | scale a b iha ihb | matMul a b iha ihb =>
    have ha := iha hnames.1 (hnumbers.of_mem_children (.head _))
    have hb := ihb hnames.2 (hnumbers.of_mem_children (.tail _ (.head _)))
    exact (legible_enclose ha _).sign (Operator.isSign_word _) (legible_enclose hb _)

/-! ## The tree of a phrase -/

/-- The level of the grammar that the text of an expression derives from. -/
def level (e : Expr S) : Formula.Level :=
  match e.precedence with
  | 0 | 1 => .signed
  | 3 => .product
  | _ => .sum

section Levels

open Formula (Derives)

omit [Scalar S] in
theorem needsBrackets_sum (e : Expr S) : e.needsBrackets 4 false = false := by
  cases e <;> rfl

omit [Scalar S] in
/-- What is bracketed on the right of a difference is what is bracketed in a product. -/
theorem needsBrackets_strict (e : Expr S) : e.needsBrackets 4 true = e.needsBrackets 3 false := by
  cases e <;> rfl

theorem derives_sum {ws : List Word} {t : Formula.Tree S} (h : Derives e.level ws t) :
    Derives .sum ws t := by
  unfold level at h
  split at h
  · exact h.ofSigned.ofProduct
  · exact h.ofSigned.ofProduct
  · exact h.ofProduct
  · exact h

theorem derives_product {p : Phrase S} (h : Derives e.level p.words p.tree) :
    Derives .product (p.enclose (e.needsBrackets 3 false)).words
      (p.enclose (e.needsBrackets 3 false)).tree := by
  have hparen : Derives .product _ (.paren p.tree) :=
    .ofSigned (.ofOperand (.ofAtom (.paren "(" ")" (derives_sum h))))
  cases e <;> first | exact h | exact h.ofSigned | exact hparen

theorem derives_signed {p : Phrase S} (h : Derives e.level p.words p.tree) :
    Derives .signed (p.enclose (e.needsBrackets 1 false)).words
      (p.enclose (e.needsBrackets 1 false)).tree := by
  have hparen : Derives .signed _ (.paren p.tree) :=
    .ofOperand (.ofAtom (.paren "(" ")" (derives_sum h)))
  cases e <;> first | exact h | exact hparen

/-- The words of a phrase have its tree. -/
theorem derives_phrase (e : Expr S) : Derives e.level e.phrase.words e.phrase.tree := by
  have hnumber (cs : List Char) : Derives .operand (Phrase.number cs : Phrase S).words
      (Phrase.number cs : Phrase S).tree := by
    have hatom := Derives.number (S := S) (String.ofList cs)
    rw [String.toList_ofList] at hatom
    exact hatom.ofAtom
  induction e with
  | var name =>
    simp only [phrase, matrixPhrase]
    split
    · exact .ofOperand (.ofAtom (.call "d" "(" ")" (.ofProduct (.ofSigned (.ofOperand
        (.ofAtom (.symbol _)))))))
    · exact .ofOperand (.ofAtom (.symbol name))
  | scalarVar name => exact .ofOperand (.ofAtom (.symbol name))
  | literal x =>
    simp only [phrase, numberPhrase]
    split
    · exact (hnumber _).ofOperand.neg "-"
    · exact (hnumber _).ofOperand
  | null => exact (hnumber _).ofOperand
  | differential a ih => exact .ofOperand (.ofAtom (.call "d" "(" ")" (derives_sum ih)))
  | trace a ih => exact .ofOperand (.ofAtom (.call "Tr" "(" ")" (derives_sum ih)))
  | transpose a ih => exact (derives_signed ih).turned
  | add a b iha ihb =>
    rw [phrase, needsBrackets_sum, needsBrackets_sum]
    exact (derives_sum iha).graft_sum (derives_sum ihb) (by decide)
  | sub a b iha ihb =>
    rw [phrase, needsBrackets_sum, needsBrackets_strict]
    exact (derives_sum iha).graft_sum (derives_product ihb).ofProduct (by decide)
  | scale a b iha ihb | matMul a b iha ihb =>
    exact (derives_product iha).graft_times (derives_product ihb)

end Levels

omit [Scalar S] in
theorem sensible_enclose {p : Phrase S} (h : p.tree.Sensible) (enclosed : Bool) :
    (p.enclose enclosed).tree.Sensible := by
  cases enclosed <;> exact h

/-- The tree of a phrase stands for an expression. -/
theorem sensible_phrase (hnames : e.Named Held) : e.phrase.tree.Sensible := by
  induction e with
  | var name =>
    obtain hw | ⟨inner, hw, rfl⟩ := hnames
    · rw [phrase, matrixPhrase_eq hw]
      exact hw.2
    · rw [phrase, matrixPhrase_held]
      exact .inr ⟨rfl, inner, rfl, hw.2⟩
  | scalarVar name => exact hnames.2
  | literal x =>
    simp only [phrase, numberPhrase]
    split <;> trivial
  | null => trivial
  | differential a _ =>
    obtain ⟨name, hname, hw⟩ := hnames
    rw [phrase, phrase_of_name? hname hw]
    exact .inr ⟨rfl, name, rfl, hw.2⟩
  | trace a ih => exact .inl ⟨.inl rfl, ih hnames⟩
  | transpose a ih => exact (sensible_enclose (ih hnames) _).turned
  | add a b iha ihb | sub a b iha ihb | scale a b iha ihb | matMul a b iha ihb =>
    exact (sensible_enclose (iha hnames.1) _).graft (sensible_enclose (ihb hnames.2) _)

/-- The text of an expression is read, and the formula is that of its phrase. -/
theorem parse_text_phrase (hnames : e.Named Held)
    (hnumbers : e.Literals IsSigned) :
    ∃ f : Formula S, Formula.parse e.text = .ok f ∧ f.tree = e.phrase.tree := by
  have hwords := (legible_phrase hnames hnumbers).ofSource_spell
  rw [spell_phrase, String.ofList_toList] at hwords
  exact Formula.parse_of_derives (hwords.symm ▸ derives_sum e.derives_phrase)

end Expr

end TraceCalculus
