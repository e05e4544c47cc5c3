import TraceCalculus.Formula.Grammar
import TraceCalculus.Proofs.Climbing

/-! # What the readers take away

The grammar with the places of the tokens (`Formula.Reads`) says which formula a list of tokens reads
as, its regions included; without the places it is the grammar itself (`Reads.derives`). White space
is passed over by whoever asks for a token, so a cursor counts for no more than the other tokens it
stands before (`Cursor.tokens`).

Whatever a reader of a level takes away are tokens that read as what it returns (`Formula.Sound`), by
induction on the turns of its loops and on the depth of the brackets. So a source that is parsed reads
as its formula (`reads_of_parse`).
-/

set_option autoImplicit false

namespace TraceCalculus

/-! ## The tokens before a cursor -/

/-- The tokens that are not white space. -/
def Token.solid (ts : List Token) : List Token := ts.filter fun t => !t.isBlank

/-- White space is passed over up to the first other token. -/
theorem Token.solid_of_dropWhile (ts : List Token) :
    (ts.dropWhile isBlank = [] → solid ts = []) ∧
      ∀ t rest, ts.dropWhile isBlank = t :: rest → solid ts = t :: solid rest := by
  induction ts with
  | nil => exact ⟨fun _ => rfl, nofun⟩
  | cons t ts ih =>
    cases hb : t.isBlank with
    | true => simpa [List.dropWhile_cons, solid, hb] using ih
    | false =>
      rw [List.dropWhile_cons_of_neg (by simp [hb])]
      refine ⟨nofun, fun t' rest h => ?_⟩
      cases h
      simp [solid, hb]

namespace Cursor

/-- The tokens still to be read, without white space. -/
def tokens (c : Cursor) : List Token := Token.solid c.rest

/-- The words still to be read. -/
def words (c : Cursor) : List Word := Word.ofTokens c.rest

theorem words_eq_map (c : Cursor) : c.words = c.tokens.map Token.word := rfl

theorem length_words_le (c : Cursor) : c.words.length ≤ c.rest.length := by
  rw [words_eq_map, List.length_map]
  exact List.length_filter_le _ _

theorem peek?_eq (c : Cursor) : c.peek? = c.tokens.head? := by
  unfold peek? current?
  cases h : c.skipBlanks.rest with
  | nil => rw [tokens, (Token.solid_of_dropWhile c.rest).1 h]
  | cons t rest =>
    rw [tokens, (Token.solid_of_dropWhile c.rest).2 t rest h]
    simp

theorem facing_eq (c : Cursor) (kind : Token.Kind) :
    c.facing kind = c.words.head?.any (·.kind == kind) := by
  rw [facing, peek?_eq, words_eq_map, List.head?_map, Option.any_map]
  rfl

end Cursor

namespace Parser

variable {α β : Type}

theorem tokens_of_next {c c' : Cursor} {t : Token} (h : next c = .ok t c') :
    c.tokens = t :: c'.tokens := by
  simp only [next] at h
  split at h <;> cases h
  case h_1 heq => exact (Token.solid_of_dropWhile c.rest).2 _ _ heq

theorem tokens_of_next_error {c c' : Cursor} {e : Located ParseError}
    (h : next c = .error e c') : c.tokens = [] := by
  simp only [next] at h
  split at h <;> cases h
  case h_2 heq => exact (Token.solid_of_dropWhile c.rest).1 heq

/-- What is left to do for a complete reading behind the white space. -/
def finish (a : α) (c : Cursor) : Parser α :=
  match c.current? with
  | none => pure a
  | some token =>
    if token.kind = .closeParen then fail (.unclosedParenthesis false) token.span
    else fail .expectedEnd (token.span.through c.endSpan)

theorem complete_of_ok {p : Parser α} {c d : Cursor} {a : α} (h : p c = .ok a d) :
    complete p c = finish a d.skipBlanks d.skipBlanks := by
  unfold complete
  rw [bind_ok _ h]
  rfl

/-- After a complete reading no token is left. -/
theorem complete_iff {p : Parser α} {c : Cursor} {a : α} :
    (∃ c', complete p c = .ok a c') ↔ ∃ d, p c = .ok a d ∧ d.tokens = [] := by
  cases hp : p c with
  | error e d =>
    have herr : complete p c = .error e d := bind_error _ hp
    simp [herr]
  | ok b d =>
    have hrest := complete_of_ok hp
    unfold finish Cursor.current? at hrest
    rw [hrest]
    cases hr : d.skipBlanks.rest with
    | nil =>
      have hd : d.tokens = [] := (Token.solid_of_dropWhile d.rest).1 hr
      constructor
      · rintro ⟨c', h⟩
        cases h
        exact ⟨d, rfl, hd⟩
      · rintro ⟨d', h, -⟩
        cases h
        exact ⟨d.skipBlanks, rfl⟩
    | cons t rest =>
      have hd : d.tokens = t :: Token.solid rest := (Token.solid_of_dropWhile d.rest).2 t rest hr
      constructor
      · rintro ⟨c', h⟩
        simp only [List.head?_cons] at h
        split at h <;> cases h
      · rintro ⟨d', h, hnil⟩
        cases h
        rw [hd] at hnil
        cases hnil

end Parser

namespace Formula

variable {S : Type} [Scalar S]

/-! ## The grammar with places -/

/-- The tokens read as a formula of a level of the grammar, which has its regions from them. -/
inductive Reads : Level → List Token → Formula S → Prop where
  | ofProduct {ts : List Token} {f : Formula S} : Reads .product ts f → Reads .sum ts f
  | term {us vs : List Token} {a b : Formula S} {op : Operator} (sign : Token) :
    termOperator? sign.kind = some op → Reads .sum us a → Reads .product vs b →
      Reads .sum (us ++ sign :: vs) (.binary op sign.span a b (a.span.through b.span))
  | ofSigned {ts : List Token} {f : Formula S} : Reads .signed ts f → Reads .product ts f
  | factor {us vs : List Token} {a b : Formula S} {op : Operator} (sign : Token) :
    factorOperator? sign.kind = some op → Reads .product us a → Reads .signed vs b →
      Reads .product (us ++ sign :: vs) (.binary op sign.span a b (a.span.through b.span))
  | ofOperand {ts : List Token} {f : Formula S} : Reads .operand ts f → Reads .signed ts f
  | neg {ts : List Token} {f : Formula S} (sign : Token) : sign.kind = .minus →
      Reads .signed ts f → Reads .signed (sign :: ts) (.neg f (sign.span.through f.span))
  | ofAtom {ts : List Token} {f : Formula S} : Reads .atom ts f → Reads .operand ts f
  | quote {ts : List Token} {f : Formula S} (mark : Token) : mark.kind = .quote →
      Reads .operand ts f → Reads .operand (ts ++ [mark]) (.transpose f (f.span.through mark.span))
  | dot {ts : List Token} {f : Formula S} (mark letter : Token) : mark.kind = .dot →
      letter.kind = .name ∧ letter.lexeme = "T" → Reads .operand ts f →
        Reads .operand (ts ++ [mark, letter]) (.transpose f (f.span.through letter.span))
  | number (numeral : Token) : numeral.kind = .number →
      Reads .atom [numeral]
        (.number (Scalar.ofNumeral (.ofChars numeral.lexeme.toList)) numeral.span)
  | symbol (name : Token) : name.kind = .name →
      Reads .atom [name] (.symbol name.lexeme name.span)
  | call {ts : List Token} {f : Formula S} (name opening closing : Token) : name.kind = .name →
      opening.kind = .openParen → closing.kind = .closeParen → Reads .sum ts f →
        Reads .atom (name :: opening :: ts ++ [closing])
          (.call name.lexeme name.span f (name.span.through closing.span))
  | paren {ts : List Token} {f : Formula S} (opening closing : Token) :
      opening.kind = .openParen → closing.kind = .closeParen → Reads .sum ts f →
        Reads .atom (opening :: ts ++ [closing]) (.paren f (opening.span.through closing.span))

/-- Without the places it is the grammar. -/
theorem Reads.derives {l : Level} {ts : List Token} {f : Formula S} (h : Reads l ts f) :
    Derives l (ts.map Token.word) f.tree := by
  have hword : ∀ {t : Token} {kind}, t.kind = kind → t.word = ⟨kind, t.lexeme⟩ := by
    rintro t kind rfl
    rfl
  induction h with
  | ofProduct _ ih => exact ih.ofProduct
  | ofSigned _ ih => exact ih.ofSigned
  | ofOperand _ ih => exact ih.ofOperand
  | ofAtom _ ih => exact ih.ofAtom
  | term sign hop _ _ iha ihb =>
    rw [List.map_append, List.map_cons]
    cases hkind : sign.kind <;> rw [hkind] at hop <;> cases hop <;> rw [hword hkind]
    · exact iha.plus _ ihb
    · exact iha.minus _ ihb
  | factor sign hop _ _ iha ihb =>
    rw [List.map_append, List.map_cons]
    cases hkind : sign.kind <;> rw [hkind] at hop <;> cases hop
    rw [hword hkind]
    exact iha.times _ ihb
  | neg sign hkind _ ih =>
    rw [List.map_cons, hword hkind]
    exact ih.neg _
  | quote mark hkind _ ih =>
    rw [List.map_append, List.map_singleton, hword hkind]
    exact ih.quote _
  | dot mark letter hkind hname _ ih =>
    rw [List.map_append, List.map_cons, List.map_singleton, hword hkind, hword hname.1, hname.2]
    exact ih.dot _
  | number numeral hkind =>
    rw [List.map_singleton, hword hkind]
    exact .number _
  | symbol name hkind =>
    rw [List.map_singleton, hword hkind]
    exact .symbol _
  | call name opening closing hname hopening hclosing _ ih =>
    rw [List.map_append, List.map_cons, List.map_cons, List.map_singleton, hword hname,
      hword hopening, hword hclosing]
    exact ih.call _ _ _
  | paren opening closing hopening hclosing _ ih =>
    rw [List.map_append, List.map_cons, List.map_singleton, hword hopening, hword hclosing]
    exact ih.paren _ _

/-! ## What is taken away -/

/-- Whatever the reader takes away are tokens that read as what it returns. -/
def Sound (l : Level) (p : Parser (Formula S)) : Prop :=
  ∀ c f c', p c = .ok f c' → ∃ ts, c.tokens = ts ++ c'.tokens ∧ Reads l ts f

theorem Reads.stop {l : Level} {us : List Token} {f : Formula S} (h : Reads l us f) (c : Cursor) :
    ∃ ts, c.tokens = ts ++ c.tokens ∧ Reads l (us ++ ts) f :=
  ⟨[], rfl, by rwa [List.append_nil]⟩

/-- The loop over the marks goes on from an operand to an operand. -/
theorem transposes_sound {turns : Nat} {f g : Formula S} {c c' : Cursor} {us : List Token}
    (hf : Reads .operand us f) (h : transposes turns f c = .ok g c') :
    ∃ ts, c.tokens = ts ++ c'.tokens ∧ Reads .operand (us ++ ts) g := by
  induction turns generalizing f c us with
  | zero => cases h; exact hf.stop _
  | succ turns ih =>
    simp only [transposes] at h
    split at h
    case h_1 => cases h; exact hf.stop _
    case h_2 mark after hmark =>
      have htokens := Parser.tokens_of_next hmark
      split at h
      case h_1 hkind =>
        obtain ⟨ts, hts, hg⟩ := ih (hf.quote mark hkind) h
        exact ⟨mark :: ts, by rw [htokens, hts]; rfl, by simpa using hg⟩
      case h_2 hkind =>
        split at h
        case h_1 => cases h
        case h_2 letter after' hletter =>
          split at h
          case isTrue ht =>
            obtain ⟨ts, hts, hg⟩ := ih (hf.dot mark letter hkind ht) h
            refine ⟨mark :: letter :: ts, ?_, by simpa using hg⟩
            rw [htokens, Parser.tokens_of_next hletter, hts]
            rfl
          case isFalse => cases h
      case h_3 => cases h; exact hf.stop _

/-- The loop over the operators goes on from a level to the same level. -/
theorem chain_sound {admits : Token.Kind → Option Operator} {next : Parser (Formula S)}
    {l l' : Level} (hnext : Sound l' next)
    (hjoin : ∀ {us vs : List Token} {a b : Formula S} {op : Operator} (sign : Token),
      admits sign.kind = some op → Reads l us a → Reads l' vs b →
        Reads l (us ++ sign :: vs) (.binary op sign.span a b (a.span.through b.span)))
    {turns : Nat} {f g : Formula S} {c c' : Cursor} {us : List Token}
    (hf : Reads l us f) (h : chain admits next turns f c = .ok g c') :
    ∃ ts, c.tokens = ts ++ c'.tokens ∧ Reads l (us ++ ts) g := by
  induction turns generalizing f c us with
  | zero => cases h; exact hf.stop _
  | succ turns ih =>
    simp only [chain] at h
    split at h
    case h_1 => cases h; exact hf.stop _
    case h_2 sign after hsign =>
      split at h
      case h_1 => cases h; exact hf.stop _
      case h_2 op hop =>
        split at h
        case h_1 => cases h
        case h_2 rhs after' hrhs =>
          obtain ⟨vs, hvs, hb⟩ := hnext _ _ _ hrhs
          obtain ⟨ts, hts, hg⟩ := ih (hjoin sign hop hf hb) h
          refine ⟨sign :: vs ++ ts, ?_, by simpa using hg⟩
          rw [Parser.tokens_of_next hsign, hvs, hts]
          simp

variable {inner : Parser (Formula S)}

omit [Scalar S] in
/-- Behind an opening bracket stands a formula and a closing bracket, but not at once the latter. -/
theorem bracketed_of_next (inner : Parser (Formula S)) {c d : Cursor} {opening : Token}
    (h : Parser.next c = .ok opening d) :
    (d.facing .closeParen = false → bracketed inner c = (inner >>= closed opening.span) d) ∧
      (d.facing .closeParen = true →
        ∃ s, bracketed inner c = .error (.on .emptyParenthesis s) d) := by
  have hpeek : bracketed inner c = opened inner opening.span d.peek? d := by
    rw [bracketed_eq, Parser.bind_ok _ h]
    rfl
  rw [hpeek]
  unfold Cursor.facing opened
  cases d.peek? with
  | none => exact ⟨fun _ => rfl, fun h => by cases h⟩
  | some closing =>
    by_cases hkind : closing.kind = .closeParen
    · refine ⟨fun hf => ?_, fun _ => ⟨_, by simp only [hkind]; rfl⟩⟩
      simp [hkind] at hf
    · refine ⟨fun _ => by simp only [hkind, if_false], fun hf => ?_⟩
      simp [hkind] at hf

theorem bracketed_sound (hinner : Sound .sum inner) {c c' : Cursor} {f : Formula S} {span : Span}
    (hc : c.facing .openParen = true) (h : bracketed inner c = .ok (f, span) c') :
    ∃ opening ts closing, opening.kind = .openParen ∧ closing.kind = .closeParen ∧
      Reads .sum ts f ∧ span = opening.span.through closing.span ∧
      c.tokens = opening :: ts ++ closing :: c'.tokens := by
  obtain ⟨opening, d, hopening, -⟩ := Parser.bind_eq_ok h
  obtain ⟨hinside, hempty⟩ := bracketed_of_next inner hopening
  cases hd : d.facing .closeParen with
  | true =>
    obtain ⟨e, he⟩ := hempty hd
    rw [he] at h
    cases h
  | false =>
    rw [hinside hd] at h
    obtain ⟨g, e, hg, h⟩ := Parser.bind_eq_ok h
    obtain ⟨ts, hts, hreads⟩ := hinner _ _ _ hg
    unfold closed at h
    split at h
    case h_1 => cases h
    case h_2 closing after hclosing =>
      split at h
      case isTrue hkind =>
        cases h
        refine ⟨opening, ts, closing, Parser.kind_of_facing hc hopening, hkind, hreads, rfl, ?_⟩
        rw [Parser.tokens_of_next hopening, hts, Parser.tokens_of_next hclosing]
        rfl
      case isFalse => cases h

theorem atom_sound (hinner : Sound .sum inner) : Sound .atom (atom inner) := by
  intro c f c' h
  obtain ⟨_, d, hget, h⟩ := Parser.bind_eq_ok h
  cases hget
  split at h
  case isTrue hc =>
    obtain ⟨⟨g, span⟩, d, hg, h⟩ := Parser.bind_eq_ok h
    cases h
    obtain ⟨opening, ts, closing, hopening, hclosing, hreads, rfl, htokens⟩ :=
      bracketed_sound hinner hc hg
    exact ⟨_, by simpa using htokens, hreads.paren opening closing hopening hclosing⟩
  case isFalse =>
    obtain ⟨token, d, htoken, h⟩ := Parser.bind_eq_ok h
    have htokens := Parser.tokens_of_next htoken
    cases hkind : token.kind <;> simp only [hkind] at h
    case number =>
      cases h
      exact ⟨[token], htokens, .number token hkind⟩
    case name =>
      obtain ⟨_, d', hget, h⟩ := Parser.bind_eq_ok h
      cases hget
      split at h
      case isTrue hc =>
        obtain ⟨⟨g, span⟩, d', hg, h⟩ := Parser.bind_eq_ok h
        cases h
        obtain ⟨opening, ts, closing, hopening, hclosing, hreads, rfl, hrest⟩ :=
          bracketed_sound hinner hc hg
        exact ⟨_, by rw [htokens, hrest]; simp,
          hreads.call token opening closing hkind hopening hclosing⟩
      case isFalse =>
        cases h
        exact ⟨[token], htokens, .symbol token hkind⟩
    all_goals cases h

theorem signed_sound (hinner : Sound .sum inner) (turns : Nat) :
    Sound .signed (signed inner turns) := by
  induction turns with
  | zero => intro c f c' h; cases h
  | succ turns ih =>
    intro c f c' h
    by_cases hc : c.facing .minus = true
    · rw [signed_of_facing _ hc] at h
      obtain ⟨minus, d, hminus, h⟩ := Parser.bind_eq_ok h
      obtain ⟨operand, d', hoperand, h⟩ := Parser.bind_eq_ok h
      cases h
      obtain ⟨ts, hts, hreads⟩ := ih _ _ _ hoperand
      refine ⟨_, ?_, hreads.neg minus (Parser.kind_of_facing hc hminus)⟩
      rw [Parser.tokens_of_next hminus, hts]
      rfl
    · rw [signed_of_not_facing _ hc] at h
      obtain ⟨operand, d, hatom, h⟩ := Parser.bind_eq_ok h
      obtain ⟨_, d', hget, h⟩ := Parser.bind_eq_ok h
      cases hget
      obtain ⟨us, hus, hreads⟩ := atom_sound hinner _ _ _ hatom
      obtain ⟨ts, hts, hreads⟩ := transposes_sound hreads.ofAtom h
      exact ⟨us ++ ts, by rw [hus, hts, List.append_assoc], hreads.ofOperand⟩

theorem factor_sound (hinner : Sound .sum inner) : Sound .signed (factor inner) :=
  fun c => signed_sound hinner _ c

theorem product_sound (hinner : Sound .sum inner) : Sound .product (product inner) := by
  intro c f c' h
  obtain ⟨lhs, d, hlhs, h⟩ := Parser.bind_eq_ok h
  obtain ⟨_, d', hget, h⟩ := Parser.bind_eq_ok h
  cases hget
  obtain ⟨us, hus, hreads⟩ := factor_sound hinner _ _ _ hlhs
  obtain ⟨ts, hts, hreads⟩ := chain_sound (factor_sound hinner) .factor hreads.ofSigned h
  exact ⟨us ++ ts, by rw [hus, hts, List.append_assoc], hreads⟩

theorem sum_sound (hinner : Sound .sum inner) : Sound .sum (sum inner) := by
  intro c f c' h
  obtain ⟨lhs, d, hlhs, h⟩ := Parser.bind_eq_ok h
  obtain ⟨_, d', hget, h⟩ := Parser.bind_eq_ok h
  cases hget
  obtain ⟨us, hus, hreads⟩ := product_sound hinner _ _ _ hlhs
  obtain ⟨ts, hts, hreads⟩ := chain_sound (product_sound hinner) .term hreads.ofProduct h
  exact ⟨us ++ ts, by rw [hus, hts, List.append_assoc], hreads⟩

/-- What is read is a formula of the grammar in its place, however deep the brackets. -/
theorem nested_sound (depth : Nat) : Sound .sum (nested (S := S) depth) := by
  induction depth with
  | zero => intro c f c' h; cases h
  | succ depth ih => exact sum_sound ih

/-! ## The whole source -/

theorem parse_eq_ok {source : String} {f : Formula S} :
    parse source = .ok f ↔
      ∃ c, nested ((Cursor.ofSource source).rest.length + 1) (Cursor.ofSource source) = .ok f c ∧
        c.tokens = [] := by
  have hcomplete : parse source = .ok f ↔
      ∃ c, Parser.complete parser (Cursor.ofSource source) = .ok f c := by
    unfold parse
    split <;> simp [*]
  rw [hcomplete, Parser.complete_iff, parser_eq_nested (Nat.le_succ _)]

theorem reads_of_parse {source : String} {f : Formula S} (h : parse source = .ok f) :
    Reads .sum (Token.solid (Token.tokenize source)) f := by
  obtain ⟨c, hf, hc⟩ := parse_eq_ok.1 h
  obtain ⟨ts, hts, hreads⟩ := nested_sound _ _ _ _ hf
  rw [hc, List.append_nil] at hts
  rwa [← hts] at hreads

theorem derives_of_parse {source : String} {f : Formula S} (h : parse source = .ok f) :
    Derives .sum (Word.ofSource source) f.tree :=
  (reads_of_parse h).derives

end Formula

end TraceCalculus
