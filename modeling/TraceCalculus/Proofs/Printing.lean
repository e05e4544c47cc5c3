import TraceCalculus.Formula.Printer
import TraceCalculus.Proofs.DoubleText
import TraceCalculus.Proofs.Parsing
import TraceCalculus.Proofs.Words

/-! # Formulas as they are written

The text of a formula that was read is read as the same formula (`Formula.parse_text`), apart from its
places in the source.

The text is made of words that do not run into each other (`Formula.Tree.legible_printed`): there is a
word that is neither a name nor a number between any two that are. And these words derive from the
same level as those that the formula was read from (`Formula.Derives.printed`): the brackets stand
where they were, and both marks of a transposition are written as one.
-/

set_option autoImplicit false

namespace TraceCalculus

open Decimal (IsNumeral)

/-- The word an operator is written as. -/
def Operator.word : Operator → Word
  | .plus => ⟨.plus, "+"⟩
  | .minus => ⟨.minus, "-"⟩
  | .times => ⟨.times, "*"⟩

theorem Operator.isSign_word (op : Operator) : op.word.IsSign := by
  cases op
  · exact ⟨⟨'+', rfl, rfl⟩, by decide⟩
  · exact ⟨⟨'-', rfl, rfl⟩, by decide⟩
  · exact ⟨⟨'*', rfl, rfl⟩, by decide⟩

namespace Formula

variable {S : Type}

namespace Tree

/-- The numbers of a formula. -/
def numbers : Tree S → List S
  | .number x => [x]
  | .symbol _ => []
  | .paren t | .neg t | .transpose t | .call _ t => t.numbers
  | .binary _ a b => a.numbers ++ b.numbers

variable [Scalar S]

/-- The words a formula is written with. -/
def printed : Tree S → List Word
  | .number x => [⟨.number, Scalar.text x⟩]
  | .symbol name => [⟨.name, name⟩]
  | .paren t => Word.bracketed t.printed
  | .neg t => ⟨.minus, "-"⟩ :: t.printed
  | .transpose t => t.printed ++ [⟨.quote, "'"⟩]
  | .binary op a b => a.printed ++ op.word :: b.printed
  | .call name t => ⟨.name, name⟩ :: Word.bracketed t.printed

/-- The names of the formula are names, and its numbers are written as numerals from which they are
read again. -/
def Plain : Tree S → Prop
  | .number x => IsNumeral (Scalar.text x).toList ∧
    Scalar.ofNumeral (.ofChars (Scalar.text x).toList) = x
  | .symbol name => IsName name.toList
  | .paren t | .neg t | .transpose t => t.Plain
  | .binary _ a b => a.Plain ∧ b.Plain
  | .call name t => IsName name.toList ∧ t.Plain

/-- The words of a formula do not run into each other. -/
theorem legible_printed {t : Tree S} (h : t.Plain) : Word.Legible t.printed := by
  induction t with
  | number x => exact Word.legible_singleton h.1
  | symbol name => exact Word.legible_singleton h
  | paren t ih => exact (ih h).bracketed
  | neg t ih => exact (ih h).sign_cons Word.isSign_minus
  | transpose t ih => exact (ih h).sign Word.isSign_quote Word.legible_nil
  | binary op a b iha ihb => exact (iha h.1).sign op.isSign_word (ihb h.2)
  | call name t ih => exact (ih h.2).called h.1

end Tree

variable [Scalar S]

theorem toList_text (f : Formula S) : f.text.toList = Word.spell f.tree.printed := by
  induction f with
  | number | symbol => simp [text, tree, Tree.printed]
  | paren _ _ ih | neg _ _ ih | transpose _ _ ih | call _ _ _ _ ih =>
    simp [text, tree, Tree.printed, Word.bracketed, ih]
  | binary op _ _ _ _ iha ihb =>
    simp only [text, tree, Tree.printed, String.toList_append, Word.spell_append, Word.spell_cons,
      iha, ihb, List.append_assoc]
    cases op <;> rfl

/-- A formula derives from the words it is written with. -/
theorem Derives.printed {l : Level} {ws : List Word} {t : Tree S} (h : Derives l ws t)
    (ht : t.Plain) : Derives l t.printed t := by
  induction h with
  | ofProduct _ ih => exact (ih ht).ofProduct
  | ofSigned _ ih => exact (ih ht).ofSigned
  | ofOperand _ ih => exact (ih ht).ofOperand
  | ofAtom _ ih => exact (ih ht).ofAtom
  | plus _ _ _ iha ihb => exact (iha ht.1).plus "+" (ihb ht.2)
  | minus _ _ _ iha ihb => exact (iha ht.1).minus "-" (ihb ht.2)
  | times _ _ _ iha ihb => exact (iha ht.1).times "*" (ihb ht.2)
  | neg _ _ ih => exact (ih ht).neg "-"
  | quote _ _ ih | dot _ _ ih => exact (ih ht).quote "'"
  | number numeral =>
    have hnumber := Derives.number (S := S) (Scalar.text
      (Scalar.ofNumeral (.ofChars numeral.toList) : S))
    rwa [ht.2] at hnumber
  | symbol name => exact .symbol name
  | call name _ _ _ ih => exact (ih ht.2).call name "(" ")"
  | paren _ _ _ ih => exact (ih ht).paren "(" ")"

theorem Derives.plain {l : Level} {ws : List Word} {t : Tree S} (h : Derives l ws t)
    (hnames : ∀ name, ⟨.name, name⟩ ∈ ws → IsName name.toList)
    (hnumbers : ∀ n, (Scalar.ofNumeral n : S) ∈ t.numbers →
      (Tree.number (Scalar.ofNumeral n : S)).Plain) : t.Plain := by
  induction h with
  | ofProduct _ ih | ofSigned _ ih | ofOperand _ ih | ofAtom _ ih => exact ih hnames hnumbers
  | plus _ _ _ iha ihb | minus _ _ _ iha ihb | times _ _ _ iha ihb =>
    exact ⟨iha (fun name hn => hnames name (by simp [hn]))
        fun n hn => hnumbers n (List.mem_append_left _ hn),
      ihb (fun name hn => hnames name (by simp [hn]))
        fun n hn => hnumbers n (List.mem_append_right _ hn)⟩
  | neg _ _ ih | quote _ _ ih | dot _ _ ih | paren _ _ _ ih =>
    exact ih (fun name hn => hnames name (by simp [hn])) hnumbers
  | number numeral => exact hnumbers _ (List.mem_singleton.2 rfl)
  | symbol name => exact hnames name (.head _)
  | call name _ _ _ ih =>
    exact ⟨hnames name (.head _), ih (fun name hn => hnames name (by simp [hn])) hnumbers⟩

/-- The text of a formula that was read is read as the same formula. -/
theorem parse_text {source : String} {f : Formula Float} (h : parse source = .ok f)
    (hfinite : ∀ x ∈ f.tree.numbers, x.isFinite = true) :
    ∃ g, parse f.text = .ok g ∧ g.tree = f.tree := by
  have hd := derives_of_parse h
  have hplain : f.tree.Plain := hd.plain (fun name hname => Word.isName_of_mem_ofSource hname)
    fun n hn => Decimal.toFloat_ofChars_text (hfinite _ hn)
  have hwords := (Tree.legible_printed hplain).ofSource_spell
  have htext : f.text = String.ofList (Word.spell f.tree.printed) := by
    rw [← toList_text, String.ofList_toList]
  rw [htext]
  exact parse_of_derives (hwords.symm ▸ hd.printed hplain)

theorem parse_text_negatedProduct :
    ∃ f : Formula Float, parse "-X.T * 2.50" = .ok f ∧ f.text = "-X'*2.5" ∧
      ∃ g, parse f.text = .ok g ∧ g.tree = f.tree := by
  have hwords : Word.ofSource "-X.T * 2.50" =
      [⟨.minus, "-"⟩, ⟨.name, "X"⟩, ⟨.dot, "."⟩, ⟨.name, "T"⟩, ⟨.times, "*"⟩,
        ⟨.number, "2.50"⟩] := by
    decide +kernel
  have hd : Derives .sum (Word.ofSource "-X.T * 2.50")
      (.binary .times (.neg (.transpose (.symbol "X")))
        (.number (Scalar.ofNumeral (.ofChars "2.50".toList) : Float))) := by
    rw [hwords]
    have hleft : Derives .product _ (.neg (.transpose (.symbol "X")) : Tree Float) :=
      .ofSigned (.neg "-" (.ofOperand (.dot "." (.ofAtom (.symbol "X")))))
    exact .ofProduct (.times "*" hleft (.ofOperand (.ofAtom (.number "2.50"))))
  obtain ⟨f, hf, htree⟩ := parse_of_derives hd
  have hfinite : ∀ x ∈ f.tree.numbers, x.isFinite = true := by
    rw [htree]
    intro x hx
    rw [List.mem_singleton.1 hx]
    decide +kernel
  refine ⟨f, hf, ?_, parse_text hf hfinite⟩
  rw [← String.ofList_toList (s := f.text), toList_text, htree]
  decide +kernel

end Formula

end TraceCalculus
