import TraceCalculus.Proofs.ExactScalar
import TraceCalculus.Proofs.Places

/-! # The parser and the grammar

The parser accepts the words that derive from the grammar, and finds the one tree they have
(`Formula.parse_iff_derives`).

What it takes away reads as what it returns, so it derives (`Formula.derives_of_parse`). In the other
direction the grammar is recursive on the left where the parser has a loop. So words that derive from a
level need not be all that its reader takes: after them the reader is in its loop, with their tree in
hand (`Formula.Level.Accepts`). If no word follows with which the loop goes on (`Formula.Level.Ends`),
it ends there.
-/

set_option autoImplicit false

namespace TraceCalculus

namespace Parser

theorem words_of_next {c c' : Cursor} {t : Token} (h : next c = .ok t c') :
    c.words = t.word :: c'.words := by
  rw [Cursor.words_eq_map, tokens_of_next h]
  rfl

/-- The next word is taken from the cursor. -/
theorem next_of_words {c : Cursor} {w : Word} {ws : List Word} (h : c.words = w :: ws) :
    ∃ t c', next c = .ok t c' ∧ t.word = w ∧ c'.words = ws := by
  cases hn : next c with
  | ok t c' =>
    have hw := words_of_next hn
    rw [h, List.cons.injEq] at hw
    exact ⟨t, c', rfl, hw.1.symm, hw.2.symm⟩
  | error e c' =>
    rw [Cursor.words_eq_map, tokens_of_next_error hn] at h
    cases h

end Parser

namespace Formula

variable {S : Type} [Scalar S] {inner : Parser (Formula S)}

/-! ## What derives is read -/

namespace Level

/-- The kinds of word that can come first. -/
def starters : Level → List Token.Kind
  | .atom | .operand => [.number, .name, .openParen]
  | .signed | .product | .sum => [.minus, .number, .name, .openParen]

/-- The kinds of word with which a reader goes on. A bracket makes a name a call. -/
def followers : Level → List Token.Kind
  | .atom => [.openParen]
  | .operand | .signed => [.quote, .dot, .openParen]
  | .product => [.times, .quote, .dot, .openParen]
  | .sum => [.plus, .minus, .times, .quote, .dot, .openParen]

/-- The reader does not go on with these words. -/
def Ends (l : Level) (rest : List Word) : Prop := ∀ w ∈ rest.head?, w.kind ∉ l.followers

/-- The level of what the loop of a level joins. -/
def within : Level → Level
  | .sum => .product
  | .product | .signed => .signed
  | .operand | .atom => .atom

theorem Ends.within {l : Level} {rest : List Word} (h : l.Ends rest) : l.within.Ends rest := by
  intro w hw hmem
  refine h w hw ?_
  cases l <;>
    simp only [Level.within, followers, List.mem_cons, List.not_mem_nil, or_false] at hmem ⊢ <;>
    simp [hmem]

end Level

/-- The reader of a level. -/
def Level.reader (inner : Parser (Formula S)) (turns : Nat) : Level → Parser (Formula S)
  | .sum => Formula.sum inner
  | .product => Formula.product inner
  | .signed => Formula.signed inner turns
  | .operand => Formula.operand inner
  | .atom => Formula.atom inner

/-- The loop of a level, with a formula of the level in hand. -/
def Level.loop (inner : Parser (Formula S)) (turns : Nat) (f : Formula S) :
    Level → Parser (Formula S)
  | .sum => chain termOperator? (Formula.product inner) turns f
  | .product => chain factorOperator? (Formula.factor inner) turns f
  | .operand => transposes turns f
  | .signed | .atom => pure f

/-- After the words the reader of the level is in its loop, with their tree in hand. -/
def Level.Accepts (l : Level) (ws : List Word) (t : Tree S) : Prop :=
  ∀ depth turns c rest, ws.length ≤ depth → ws.length ≤ turns → c.words = ws ++ rest →
    l.within.Ends rest → ∃ k f c', f.tree = t ∧ c'.words = rest ∧ rest.length ≤ k ∧
      l.reader (nested depth) turns c = l.loop (nested depth) k f c'

theorem Derives.head {l : Level} {ws : List Word} {t : Tree S} (h : Derives l ws t) :
    ∃ w us, ws = w :: us ∧ w.kind ∈ l.starters := by
  induction h with
  | ofProduct _ ih | ofSigned _ ih | ofAtom _ ih => exact ih
  | ofOperand _ ih =>
    obtain ⟨w, us, rfl, hw⟩ := ih
    exact ⟨w, us, rfl, .tail _ hw⟩
  | plus _ _ _ ih _ | minus _ _ _ ih _ | times _ _ _ ih _ | quote _ _ ih | dot _ _ ih =>
    obtain ⟨w, us, rfl, hw⟩ := ih
    exact ⟨w, _, rfl, hw⟩
  | neg | number | symbol | call | paren => exact ⟨_, _, rfl, by simp [Level.starters]⟩

omit [Scalar S] in
theorem chain_of_ends {admits : Token.Kind → Option Operator} {next : Parser (Formula S)}
    {k : Nat} {f : Formula S} {c : Cursor}
    (h : ∀ w ∈ c.words.head?, admits w.kind = none) : chain admits next k f c = .ok f c :=
  chain_of_stops fun token _ hnext => h token.word (by rw [Parser.words_of_next hnext]; rfl)

omit [Scalar S] in
theorem transposes_of_ends {k : Nat} {f : Formula S} {c : Cursor}
    (h : Level.operand.Ends c.words) : transposes k f c = .ok f c := by
  cases k with
  | zero => rfl
  | succ k =>
    simp only [transposes]
    cases hn : Parser.next c with
    | error e d => rfl
    | ok token d =>
      have hkind : token.kind ∉ Level.operand.followers :=
        h token.word (by rw [Parser.words_of_next hn]; rfl)
      cases hk : token.kind <;> simp [hk, Level.followers] at hkind ⊢

/-- The loop ends where no word follows with which it goes on. -/
theorem Level.loop_of_ends {l : Level} {k : Nat} {f : Formula S} {c : Cursor}
    (h : l.Ends c.words) : l.loop inner k f c = .ok f c := by
  cases l with
  | signed | atom => rfl
  | operand => exact transposes_of_ends h
  | sum | product =>
    refine chain_of_ends fun w hw => ?_
    have hkind := h w hw
    cases hk : w.kind <;> simp [hk, followers] at hkind <;> rfl

theorem Level.Accepts.done {l : Level} {ws : List Word} {t : Tree S} (h : l.Accepts ws t)
    (depth turns : Nat) {c : Cursor} {rest : List Word} (hdepth : ws.length ≤ depth)
    (hturns : ws.length ≤ turns) (hc : c.words = ws ++ rest) (hends : l.Ends rest) :
    ∃ f c', l.reader (nested depth) turns c = .ok f c' ∧ f.tree = t ∧ c'.words = rest := by
  obtain ⟨k, f, c', hf, hc', -, hread⟩ := h depth turns c rest hdepth hturns hc hends.within
  refine ⟨f, c', ?_, hf, hc'⟩
  rw [hread]
  exact loop_of_ends (by rwa [hc'])

/-- In the loop of a level an operator and another operand make one turn. -/
theorem Level.Accepts.joined {l : Level} {us vs : List Word} {a b : Tree S} {op : Operator}
    {w : Word} {admits : Token.Kind → Option Operator}
    (hloop : ∀ (inner : Parser (Formula S)) k f, l.loop inner k f =
      chain admits (fun c => l.within.reader inner c.rest.length c) k f)
    (hop : admits w.kind = some op) (hw : w.kind ∉ l.within.followers)
    (ha : l.Accepts us a) (hb : l.within.Accepts vs b) :
    l.Accepts (us ++ w :: vs) (.binary op a b) := by
  intro depth turns c rest hdepth hturns hc hends
  simp only [List.length_append, List.length_cons] at hdepth hturns
  have hc' : c.words = us ++ w :: (vs ++ rest) := by simp [hc]
  have hends' : l.within.Ends (w :: (vs ++ rest)) := by
    intro w' hw'
    cases hw'
    exact hw
  obtain ⟨k, f, d, hf, hd, hk, hread⟩ :=
    ha depth turns c _ (by omega) (by omega) hc' hends'
  obtain ⟨k, rfl⟩ : ∃ k', k = k' + 1 := Nat.exists_eq_add_one.2 (Nat.lt_of_lt_of_le (by simp) hk)
  obtain ⟨token, e, hnext, htoken, he⟩ := Parser.next_of_words hd
  have hlength := e.length_words_le
  rw [he] at hlength
  simp only [List.length_append, List.length_cons] at hk hlength
  obtain ⟨g, c', hg, hgt, hc'⟩ :=
    hb.done depth e.rest.length (by omega) (by omega) he hends
  refine ⟨k, .binary op token.span f g (f.span.through g.span), c', ?_, hc', by omega, ?_⟩
  · rw [tree, hf, hgt]
  · have hkind : admits token.kind = some op := by
      rw [← hop, ← htoken]
      rfl
    rw [hread, hloop, hloop]
    simp only [chain, hnext, hkind, hg]

/-- A bracket around what derives from the grammar is read to its end. -/
theorem bracketed_accepts {ws : List Word} {t : Tree S} (hd : Derives .sum ws t)
    (h : Level.sum.Accepts ws t) (depth : Nat) {c : Cursor} {opening closing : String}
    {rest : List Word} (hdepth : ws.length < depth)
    (hc : c.words = ⟨.openParen, opening⟩ :: ws ++ ⟨.closeParen, closing⟩ :: rest) :
    ∃ f span c', bracketed (nested depth) c = .ok (f, span) c' ∧ f.tree = t ∧ c'.words = rest := by
  obtain ⟨depth, rfl⟩ := Nat.exists_eq_add_one.2 (Nat.lt_of_le_of_lt (Nat.zero_le _) hdepth)
  obtain ⟨first, d, hfirst, -, hd'⟩ := Parser.next_of_words hc
  have hfacing : d.facing .closeParen = false := by
    obtain ⟨w, us, rfl, hw⟩ := hd.head
    rw [Cursor.facing_eq, hd']
    cases hk : w.kind <;> simp [hk, Level.starters] at hw ⊢
  have hends : Level.sum.Ends (⟨.closeParen, closing⟩ :: rest) := by
    intro w hw
    cases hw
    simp [Level.followers]
  obtain ⟨f, e, hf, hft, he⟩ :=
    h.done depth ws.length (by omega) (Nat.le_refl _) hd' hends
  obtain ⟨last, c', hlast, hlastWord, hc'⟩ := Parser.next_of_words he
  refine ⟨f, first.span.through last.span, c', ?_, hft, hc'⟩
  have hkind : last.kind = .closeParen := congrArg Word.kind hlastWord
  have hinner : nested (depth + 1) d = .ok f e := hf
  rw [(bracketed_of_next _ hfirst).1 hfacing, Parser.bind_ok _ hinner, closed]
  simp only [hlast, hkind, if_true]

theorem atom_of_facing {c d : Cursor} {f : Formula S} {span : Span}
    (hc : c.facing .openParen = true) (h : bracketed inner c = .ok (f, span) d) :
    atom inner c = .ok (.paren f span) d := by
  unfold atom
  rw [Parser.bind_ok _ (Parser.get_ok c), if_pos hc, Parser.bind_ok _ h]
  rfl

/-- A token that is no opening bracket decides what the atom is. -/
theorem atom_of_next {c d : Cursor} {token : Token} (h : Parser.next c = .ok token d)
    (hkind : token.kind ≠ .openParen) :
    atom inner c = (match token.kind with
      | .number =>
        pure (Formula.number (Scalar.ofNumeral (.ofChars token.lexeme.toList)) token.span)
      | .name => do
        let c ← get
        if c.facing .openParen then
          let (arg, span) ← bracketed inner
          return .call token.lexeme token.span arg (token.span.through span)
        else return .symbol token.lexeme token.span
      | .closeParen => Parser.fail (.unclosedParenthesis false) token.span
      | found => Parser.fail (.unexpectedToken found) token.span : Parser (Formula S)) d := by
  have hc : ¬ c.facing .openParen = true := by
    rw [Cursor.facing_eq, Parser.words_of_next h]
    simpa [Token.word] using hkind
  unfold atom
  rw [Parser.bind_ok _ (Parser.get_ok c), if_neg hc]
  exact Parser.bind_ok _ h

section Accepts

variable {ws : List Word} {t : Tree S}

theorem Level.Accepts.ofProduct (h : Level.product.Accepts ws t) : Level.sum.Accepts ws t := by
  intro depth turns c rest hdepth hturns hc hends
  obtain ⟨f, c', hf, hft, hc'⟩ := h.done _ _ hdepth hturns hc hends
  exact ⟨c'.rest.length, f, c', hft, hc', hc' ▸ c'.length_words_le, Parser.bind_ok _ hf⟩

theorem Level.Accepts.ofSigned (h : Level.signed.Accepts ws t) : Level.product.Accepts ws t := by
  intro depth turns c rest hdepth hturns hc hends
  have hlength := c.length_words_le
  rw [hc, List.length_append] at hlength
  obtain ⟨f, c', hf, hft, hc'⟩ := h.done depth c.rest.length hdepth (by omega) hc hends
  have hfactor : Formula.factor (nested depth) c = .ok f c' := hf
  exact ⟨c'.rest.length, f, c', hft, hc', hc' ▸ c'.length_words_le, Parser.bind_ok _ hfactor⟩

theorem Level.Accepts.ofOperand (hd : Derives .operand ws t) (h : Level.operand.Accepts ws t) :
    Level.signed.Accepts ws t := by
  intro depth turns c rest hdepth hturns hc hends
  obtain ⟨w, us, rfl, hw⟩ := hd.head
  obtain ⟨turns, rfl⟩ := Nat.exists_eq_add_one.2 (Nat.lt_of_lt_of_le (Nat.succ_pos _) hturns)
  have hminus : ¬ c.facing .minus = true := by
    rw [Cursor.facing_eq, hc]
    cases hk : w.kind <;> simp [hk, starters] at hw ⊢
  obtain ⟨f, c', hf, hft, hc'⟩ := h.done _ _ hdepth (Nat.le_refl _) hc hends
  exact ⟨rest.length, f, c', hft, hc', Nat.le_refl _,
    (signed_of_not_facing turns hminus).trans hf⟩

theorem Level.Accepts.negated {sign : String} (h : Level.signed.Accepts ws t) :
    Level.signed.Accepts (⟨.minus, sign⟩ :: ws) (.neg t) := by
  intro depth turns c rest hdepth hturns hc hends
  simp only [List.length_cons] at hdepth hturns
  obtain ⟨turns, rfl⟩ := Nat.exists_eq_add_one.2 (Nat.lt_of_lt_of_le (Nat.succ_pos _) hturns)
  have hminus : c.facing .minus = true := by
    rw [Cursor.facing_eq, hc]
    rfl
  obtain ⟨minus, d, hnext, -, hd⟩ := Parser.next_of_words hc
  obtain ⟨f, c', hf, hft, hc'⟩ :=
    h.done depth turns (by omega) (by omega) hd hends
  refine ⟨rest.length, .neg f (minus.span.through f.span), c', congrArg Tree.neg hft, hc',
    Nat.le_refl _, ?_⟩
  have hsigned : Formula.signed (nested depth) turns d = .ok f c' := hf
  simp only [reader]
  rw [signed_of_facing _ hminus, Parser.bind_ok _ hnext, Parser.bind_ok _ hsigned]
  rfl

theorem Level.Accepts.ofAtom (h : Level.atom.Accepts ws t) : Level.operand.Accepts ws t := by
  intro depth turns c rest hdepth hturns hc hends
  obtain ⟨f, c', hf, hft, hc'⟩ := h.done _ _ hdepth (Nat.le_refl _) hc hends
  exact ⟨c'.rest.length, f, c', hft, hc', hc' ▸ c'.length_words_le, Parser.bind_ok _ hf⟩

/-- A mark, of one word or two, is one turn of the loop over the marks. -/
theorem Level.Accepts.marked {w : Word} {ms : List Word} (hw : w.kind ≠ .openParen)
    (hmark : ∀ k (f : Formula S) c rest, c.words = w :: (ms ++ rest) → ∃ span c', c'.words = rest ∧
      transposes (k + 1) f c = transposes k (.transpose f span) c')
    (h : Level.operand.Accepts ws t) :
    Level.operand.Accepts (ws ++ w :: ms) (.transpose t) := by
  intro depth turns c rest hdepth hturns hc hends
  simp only [List.length_append] at hdepth hturns
  rw [List.append_assoc] at hc
  have hends' : Level.atom.Ends (w :: (ms ++ rest)) := by
    intro w' hw'
    cases hw'
    simpa [followers] using hw
  obtain ⟨k, f, d, hft, hd, hk, hread⟩ := h depth turns c _ (by omega) (by omega) hc hends'
  obtain ⟨k, rfl⟩ : ∃ k', k = k' + 1 := Nat.exists_eq_add_one.2 (Nat.lt_of_lt_of_le (by simp) hk)
  obtain ⟨span, c', hc', hturn⟩ := hmark k f d rest hd
  simp only [List.cons_append, List.length_append, List.length_cons] at hk
  exact ⟨k, .transpose f span, c', congrArg Tree.transpose hft, hc', by omega, hread.trans hturn⟩

omit [Scalar S] in
theorem transposes_quote {mark : String} (k : Nat) (f : Formula S) (c : Cursor) (rest : List Word)
    (hc : c.words = ⟨.quote, mark⟩ :: rest) : ∃ span c', c'.words = rest ∧
      transposes (k + 1) f c = transposes k (.transpose f span) c' := by
  obtain ⟨token, c', hnext, htoken, hc'⟩ := Parser.next_of_words hc
  have hkind : token.kind = .quote := congrArg Word.kind htoken
  refine ⟨f.span.through token.span, c', hc', ?_⟩
  simp only [transposes, hnext, hkind]

omit [Scalar S] in
theorem transposes_dot {mark : String} (k : Nat) (f : Formula S) (c : Cursor) (rest : List Word)
    (hc : c.words = ⟨.dot, mark⟩ :: ⟨.name, "T"⟩ :: rest) : ∃ span c', c'.words = rest ∧
      transposes (k + 1) f c = transposes k (.transpose f span) c' := by
  obtain ⟨token, d, hnext, htoken, hd⟩ := Parser.next_of_words hc
  obtain ⟨letter, c', hnext', hletter, hc'⟩ := Parser.next_of_words hd
  have hkind : token.kind = .dot := congrArg Word.kind htoken
  have hname : letter.kind = .name ∧ letter.lexeme = "T" :=
    ⟨congrArg Word.kind hletter, congrArg Word.lexeme hletter⟩
  refine ⟨f.span.through letter.span, c', hc', ?_⟩
  simp only [transposes, hnext, hkind, hnext', hname, and_self, if_true]

theorem accepts_number (numeral : String) : Level.atom.Accepts [⟨.number, numeral⟩]
    (.number (Scalar.ofNumeral (.ofChars numeral.toList)) : Tree S) := by
  intro depth turns c rest _ _ hc _
  obtain ⟨token, d, hnext, htoken, hd⟩ := Parser.next_of_words hc
  have hkind : token.kind = .number := congrArg Word.kind htoken
  have hlexeme : token.lexeme = numeral := congrArg Word.lexeme htoken
  refine ⟨rest.length, .number (Scalar.ofNumeral (.ofChars token.lexeme.toList)) token.span, d,
    by rw [tree, hlexeme], hd, Nat.le_refl _, ?_⟩
  simp only [Level.reader]
  rw [atom_of_next hnext (by rw [hkind]; decide), hkind]
  rfl

theorem accepts_symbol (name : String) :
    Level.atom.Accepts [⟨.name, name⟩] (.symbol name : Tree S) := by
  intro depth turns c rest _ _ hc hends
  obtain ⟨token, d, hnext, htoken, hd⟩ := Parser.next_of_words hc
  have hkind : token.kind = .name := congrArg Word.kind htoken
  have hlexeme : token.lexeme = name := congrArg Word.lexeme htoken
  have hcall : ¬ d.facing .openParen = true := by
    rw [Cursor.facing_eq, hd, Option.any_eq_true]
    rintro ⟨w, hw, hopen⟩
    exact hends w hw (by simpa [Level.within, Level.followers] using hopen)
  refine ⟨rest.length, .symbol token.lexeme token.span, d, by rw [tree, hlexeme], hd,
    Nat.le_refl _, ?_⟩
  simp only [Level.reader]
  rw [atom_of_next hnext (by rw [hkind]; decide), hkind]
  exact (Parser.bind_ok _ (Parser.get_ok d)).trans (by rw [if_neg hcall]; rfl)

theorem accepts_call {name opening closing : String} (hd : Derives .sum ws t)
    (h : Level.sum.Accepts ws t) :
    Level.atom.Accepts (⟨.name, name⟩ :: ⟨.openParen, opening⟩ :: ws ++ [⟨.closeParen, closing⟩])
      (.call name t) := by
  intro depth turns c rest hdepth _ hc _
  simp only [List.cons_append, List.length_append, List.length_cons, List.length_nil] at hdepth
  rw [List.append_assoc] at hc
  obtain ⟨token, d, hnext, htoken, hd'⟩ := Parser.next_of_words hc
  have hkind : token.kind = .name := congrArg Word.kind htoken
  have hlexeme : token.lexeme = name := congrArg Word.lexeme htoken
  obtain ⟨f, span, c', hf, hft, hc'⟩ := bracketed_accepts hd h depth (by omega) hd'
  have hfacing : d.facing .openParen = true := by
    rw [Cursor.facing_eq, hd']
    rfl
  refine ⟨rest.length, .call token.lexeme token.span f (token.span.through span), c',
    by rw [tree, hft, hlexeme], hc', Nat.le_refl _, ?_⟩
  simp only [Level.reader]
  rw [atom_of_next hnext (by rw [hkind]; decide), hkind]
  refine (Parser.bind_ok _ (Parser.get_ok d)).trans ?_
  rw [if_pos hfacing, Parser.bind_ok _ hf]
  rfl

theorem accepts_paren {opening closing : String} (hd : Derives .sum ws t)
    (h : Level.sum.Accepts ws t) :
    Level.atom.Accepts (⟨.openParen, opening⟩ :: ws ++ [⟨.closeParen, closing⟩]) (.paren t) := by
  intro depth turns c rest hdepth _ hc _
  simp only [List.cons_append, List.length_append, List.length_cons, List.length_nil] at hdepth
  rw [List.append_assoc] at hc
  obtain ⟨f, span, c', hf, hft, hc'⟩ := bracketed_accepts hd h depth (by omega) hc
  have hfacing : c.facing .openParen = true := by
    rw [Cursor.facing_eq, hc]
    rfl
  exact ⟨rest.length, .paren f span, c', congrArg Tree.paren hft, hc', Nat.le_refl _,
    atom_of_facing hfacing hf⟩

/-- After words that derive from a level, its reader is in its loop with their tree. -/
theorem Derives.accepts {l : Level} (h : Derives l ws t) : l.Accepts ws t := by
  induction h with
  | ofProduct _ ih => exact ih.ofProduct
  | ofSigned _ ih => exact ih.ofSigned
  | ofOperand hd ih => exact ih.ofOperand hd
  | ofAtom _ ih => exact ih.ofAtom
  | plus _ _ _ iha ihb | minus _ _ _ iha ihb | times _ _ _ iha ihb =>
    exact iha.joined (fun _ _ _ => rfl) rfl (by simp [Level.within, Level.followers]) ihb
  | neg _ _ ih => exact ih.negated
  | quote _ _ ih => exact ih.marked (by simp) transposes_quote
  | dot _ _ ih => exact ih.marked (by simp) transposes_dot
  | number numeral => exact accepts_number numeral
  | symbol name => exact accepts_symbol name
  | call _ _ _ hd ih => exact accepts_call hd ih
  | paren _ _ hd ih => exact accepts_paren hd ih

end Accepts

/-! ## The whole source -/

theorem parse_of_derives {source : String} {t : Tree S}
    (h : Derives .sum (Word.ofSource source) t) : ∃ f, parse source = .ok f ∧ f.tree = t := by
  have hwords : (Cursor.ofSource source).words = Word.ofSource source ++ [] :=
    (List.append_nil _).symm
  obtain ⟨f, c, hf, hft, hc⟩ := h.accepts.done _ _ (Cursor.ofSource source).length_words_le
    (Nat.le_refl _) hwords (fun _ hw => by cases hw)
  exact ⟨f, parse_eq_ok.2 ⟨c, hf, List.map_eq_nil_iff.1 hc⟩, hft⟩

/-- The parser accepts the sources whose words derive from the grammar, and no others; and what it
finds is the one tree that they have. -/
theorem parse_iff_derives (source : String) :
    ((∃ f : Formula S, parse source = .ok f) ↔
      ∃ t : Tree S, Derives .sum (Word.ofSource source) t) ∧
      ∀ f : Formula S, parse source = .ok f →
        ∀ t, Derives .sum (Word.ofSource source) t ↔ t = f.tree := by
  refine ⟨⟨fun ⟨f, hf⟩ => ⟨f.tree, derives_of_parse hf⟩, fun ⟨t, ht⟩ => ?_⟩, fun f hf t => ?_⟩
  · obtain ⟨f, hf, -⟩ := parse_of_derives ht
    exact ⟨f, hf⟩
  · constructor
    · intro ht
      obtain ⟨g, hg, rfl⟩ := parse_of_derives ht
      rw [hf] at hg
      cases hg
      rfl
    · rintro rfl
      exact derives_of_parse hf

theorem parse_iff_derives_negatedProduct :
    ∃ f : Formula Int, parse "-X'*2 - d(X.T)" = .ok f ∧
      ∀ t, Derives .sum (Word.ofSource "-X'*2 - d(X.T)") t ↔ t = f.tree := by
  have hsome : ((parse "-X'*2 - d(X.T)").toOption.map tree : Option (Tree Int)) =
      some (.binary .minus (.binary .times (.neg (.transpose (.symbol "X"))) (.number 2))
        (.call "d" (.transpose (.symbol "X")))) := by
    decide +kernel
  obtain ⟨f, hf, -⟩ := Option.map_eq_some_iff.1 hsome
  have hparse : parse "-X'*2 - d(X.T)" = .ok f := by
    revert hf
    cases parse (S := Int) "-X'*2 - d(X.T)" <;> simp [Except.toOption]
  exact ⟨f, hparse, (parse_iff_derives _).2 f hparse⟩

end Formula

end TraceCalculus
