import Mathlib
import TraceCalculus.Proofs.Brackets

/-! # Brackets that are reported without a partner

The parser reports an opening bracket if something else than a closing one follows the formula
behind it, and a closing bracket if it stands where an operand is expected or behind the whole formula
(`Formula.Blames`, by induction on the readers). It looks no further: the opening bracket may be closed
later in the source (`(A B)`), and the closing one may have been opened before (`(A+)`).
`Formula.parse_unclosed` says exactly when the report is true.
-/

set_option autoImplicit false

namespace TraceCalculus

open Token (Covered Balanced IsClosed IsOpened solid balanced_singleton)

theorem Cursor.facing_iff {c : Cursor} {t : Token} {kind : Token.Kind}
    (ht : c.tokens.head? = some t) : c.facing kind = true ↔ t.kind = kind := by
  rw [facing, peek?_eq, ht]
  simp

theorem Parser.cause_of_next_error {c d : Cursor} {e : Located ParseError}
    (h : next c = .error e d) : e.cause = .unexpectedEnd := by
  simp only [next] at h
  split at h <;> cases h
  rfl

namespace Formula

variable {S : Type} [Scalar S] {ts us : List Token} {e : Located ParseError}

/-! ## The bracket to blame -/

/-- If the error is about a bracket, it points at one of the tokens: at an opening one behind which
stand a formula and then no closing bracket, or at a closing one behind an operator or at the
start. -/
structure Blames (S : Type) [Scalar S] (ts : List Token) (e : Located ParseError) : Prop where
  opening : e.cause = .unclosedParenthesis true →
    ∃ before t us rest, ∃ f : Formula S, ts = before ++ t :: (us ++ rest) ∧ e.spans = [t.span] ∧
      t.kind = .openParen ∧ Reads .sum us f ∧ ∀ u ∈ rest.head?, u.kind ≠ .closeParen
  closing : e.cause = .unclosedParenthesis false →
    ∃ before t behind, ts = before ++ t :: behind ∧ e.spans = [t.span] ∧ t.kind = .closeParen ∧
      Covered before ∧ ∀ u ∈ before.getLast?, u.kind.isOperator = true

/-- Where the reader fails, it blames one of the tokens it was to read. -/
def Blaming (p : Parser (Formula S)) : Prop :=
  ∀ c e d, p c = .error e d → Blames S c.tokens e

theorem Blames.of_cause (h : ∀ opening, e.cause ≠ .unclosedParenthesis opening) :
    Blames S ts e :=
  ⟨fun hcause => absurd hcause (h true), fun hcause => absurd hcause (h false)⟩

theorem Blames.of_next {c d : Cursor} (h : Parser.next c = .error e d) : Blames S ts e :=
  .of_cause fun opening => by rw [Parser.cause_of_next_error h]; nofun

/-- What stands before the tokens is not to blame. A closing bracket at their start has to stand
behind an operator. -/
theorem Blames.behind (h : Blames S ts e) (hus : Covered us)
    (hmeet : ∀ t ∈ ts.head?, t.kind = .closeParen → ∀ u ∈ us.getLast?, u.kind.isOperator = true) :
    Blames S (us ++ ts) e where
  opening hcause := by
    obtain ⟨before, t, vs, rest, f, rfl, hspans, hkind, hf, hrest⟩ := h.opening hcause
    exact ⟨us ++ before, t, vs, rest, f, by simp, hspans, hkind, hf, hrest⟩
  closing hcause := by
    obtain ⟨before, t, behind, rfl, hspans, hkind, hbefore, hlast⟩ := h.closing hcause
    refine ⟨us ++ before, t, behind, by simp, hspans, hkind, hus.append hbefore, ?_⟩
    rcases List.eq_nil_or_concat before with rfl | ⟨ws, w, rfl⟩
    · simpa using hmeet t rfl hkind
    · simpa using hlast

theorem Blames.behind_token {t : Token} (h : Blames S ts e) (ht : t.kind ≠ .closeParen)
    (hhead : ∀ u ∈ ts.head?, u.kind ≠ .closeParen) : Blames S (t :: ts) e :=
  h.behind (Token.covered_singleton ht) fun u hu hkind => absurd hkind (hhead u hu)

theorem Blames.behind_operator {sign : Token} (h : Blames S ts e)
    (hsign : sign.kind.isOperator = true) : Blames S (sign :: ts) e := by
  have hbalanced : Balanced [sign] := balanced_singleton (Token.Kind.rise_of_isOperator hsign)
  refine h.behind hbalanced.covered fun _ _ _ u hu => ?_
  cases hu
  exact hsign

/-! ## The readers -/

omit [Scalar S] in
/-- The marks of transposition have nothing to do with brackets. -/
theorem cause_of_transposes_error {turns : Nat} {f : Formula S} {c d : Cursor}
    (h : transposes turns f c = .error e d) : e.cause = .danglingDot := by
  induction turns generalizing f c with
  | zero => cases h
  | succ turns ih =>
    simp only [transposes] at h
    split at h
    case h_1 => cases h
    case h_2 mark after hmark =>
      split at h
      case h_1 => exact ih h
      case h_2 =>
        split at h
        case h_1 => cases h; rfl
        case h_2 letter after' hletter =>
          split at h
          case isTrue => exact ih h
          case isFalse => cases h; rfl
      case h_3 => cases h

/-- The loop fails only in an operand, so behind an operator. -/
theorem chain_blames {admits : Token.Kind → Option Operator} {next : Parser (Formula S)} {l : Level}
    (hadmits : ∀ {k : Token.Kind} {op : Operator}, admits k = some op → k.isOperator = true)
    (hsound : Sound l next) (hnext : Blaming next) {turns : Nat} {f : Formula S} {c d : Cursor}
    (h : chain admits next turns f c = .error e d) :
    Blames S c.tokens e ∧ ∀ t ∈ c.tokens.head?, t.kind ≠ .closeParen := by
  induction turns generalizing f c with
  | zero => cases h
  | succ turns ih =>
    simp only [chain] at h
    split at h
    case h_1 => cases h
    case h_2 sign after hsign =>
      rw [Parser.tokens_of_next hsign]
      split at h
      case h_1 => cases h
      case h_2 op hop =>
        have hoperator := hadmits hop
        refine ⟨Blames.behind_operator ?_ hoperator, fun t ht => ?_⟩
        case refine_2 =>
          cases ht
          exact Token.Kind.ne_closeParen (Token.Kind.rise_of_isOperator hoperator)
        split at h
        case h_1 hrhs => cases h; exact hnext _ _ _ hrhs
        case h_2 rhs after' hrhs =>
          obtain ⟨vs, hvs, hreads⟩ := hsound _ _ _ hrhs
          obtain ⟨hblames, hhead⟩ := ih h
          rw [hvs]
          exact hblames.behind hreads.balanced.covered fun t ht hkind => absurd hkind (hhead t ht)

variable {inner : Parser (Formula S)}

/-- Where no closing bracket follows the formula, the opening one is to blame. -/
theorem closed_blames {opening : Token} {f : Formula S} {c d : Cursor}
    (ho : opening.kind = .openParen) (hf : Reads .sum us f)
    (h : closed opening.span f c = .error e d) :
    Blames S (opening :: (us ++ c.tokens)) e := by
  have hblames : ∀ {e' : Located ParseError}, e' = .on (.unclosedParenthesis true) opening.span →
      (∀ u ∈ c.tokens.head?, u.kind ≠ .closeParen) →
        Blames S (opening :: (us ++ c.tokens)) e' := by
    rintro _ rfl hrest
    exact ⟨fun _ => ⟨[], opening, us, c.tokens, f, rfl, rfl, ho, hf, hrest⟩, nofun⟩
  unfold closed at h
  split at h
  case h_1 hnext =>
    cases h
    exact hblames rfl (by rw [Parser.tokens_of_next_error hnext]; nofun)
  case h_2 closing after hnext =>
    split at h
    case isTrue => cases h
    case isFalse hkind =>
      cases h
      refine hblames rfl fun u hu => ?_
      rw [Parser.tokens_of_next hnext] at hu
      cases hu
      exact hkind

theorem bracketed_blames (hsound : Sound .sum inner) (hinner : Blaming inner) {c d : Cursor}
    (hc : c.facing .openParen = true) (h : bracketed inner c = .error e d) :
    Blames S c.tokens e := by
  cases hnext : Parser.next c with
  | error e' d' =>
    rcases Parser.bind_eq_error h with h | ⟨opening, d, h, -⟩
    · exact .of_next h
    · rw [hnext] at h
      cases h
  | ok opening c' =>
    have ho := Parser.kind_of_facing hc hnext
    obtain ⟨hinside, hempty⟩ := bracketed_of_next inner hnext
    rw [Parser.tokens_of_next hnext]
    cases hfacing : c'.facing .closeParen with
    | true =>
      obtain ⟨s, hs⟩ := hempty hfacing
      rw [hs] at h
      cases h
      exact .of_cause nofun
    | false =>
      rw [hinside hfacing] at h
      rcases Parser.bind_eq_error h with h | ⟨f, c'', hf, h⟩
      · refine (hinner _ _ _ h).behind_token (by rw [ho]; nofun) fun t ht hkind => ?_
        rw [(Cursor.facing_iff ht).2 hkind] at hfacing
        cases hfacing
      · obtain ⟨us, hus, hreads⟩ := hsound _ _ _ hf
        rw [hus]
        exact closed_blames ho hreads h

theorem atom_blames (hsound : Sound .sum inner) (hinner : Blaming inner) :
    Blaming (atom inner) := by
  intro c e d h
  rcases Parser.bind_eq_error h with hget | ⟨_, _, hget, h⟩ <;> cases hget
  split at h
  case isTrue hc =>
    rcases Parser.bind_eq_error h with h | ⟨_, _, -, h⟩
    · exact bracketed_blames hsound hinner hc h
    · cases h
  case isFalse =>
    rcases Parser.bind_eq_error h with h | ⟨token, after, htoken, h⟩
    · exact .of_next h
    · rw [Parser.tokens_of_next htoken]
      cases hkind : token.kind <;> simp only [hkind] at h
      case name =>
        rcases Parser.bind_eq_error h with hget | ⟨_, _, hget, h⟩ <;> cases hget
        split at h
        case isTrue hc =>
          rcases Parser.bind_eq_error h with h | ⟨_, _, -, h⟩
          · refine (bracketed_blames hsound hinner hc h).behind_token (by rw [hkind]; nofun)
              fun t ht hclose => ?_
            rw [(Cursor.facing_iff ht).1 hc] at hclose
            cases hclose
          · cases h
        case isFalse => cases h
      case closeParen =>
        cases h
        exact ⟨nofun, fun _ => ⟨[], token, _, rfl, rfl, hkind, Token.covered_nil, nofun⟩⟩
      all_goals
        cases h
        try exact .of_cause nofun

theorem signed_blames (hsound : Sound .sum inner) (hinner : Blaming inner) (turns : Nat) :
    Blaming (signed inner turns) := by
  induction turns with
  | zero => intro c e d h; cases h; exact .of_cause nofun
  | succ turns ih =>
    intro c e d h
    by_cases hc : c.facing .minus = true
    · rw [signed_of_facing _ hc] at h
      rcases Parser.bind_eq_error h with h | ⟨minus, after, hminus, h⟩
      · exact .of_next h
      · rcases Parser.bind_eq_error h with h | ⟨_, _, -, h⟩
        · rw [Parser.tokens_of_next hminus]
          refine (ih _ _ _ h).behind_operator ?_
          rw [Parser.kind_of_facing hc hminus]
          rfl
        · cases h
    · rw [signed_of_not_facing _ hc] at h
      rcases Parser.bind_eq_error h with h | ⟨operand, after, -, h⟩
      · exact atom_blames hsound hinner _ _ _ h
      · rcases Parser.bind_eq_error h with hget | ⟨_, _, hget, h⟩ <;> cases hget
        exact .of_cause fun opening => by rw [cause_of_transposes_error h]; nofun

/-- An operand and the loop behind it. -/
theorem level_blames {admits : Token.Kind → Option Operator} {next : Parser (Formula S)} {l : Level}
    (hadmits : ∀ {k : Token.Kind} {op : Operator}, admits k = some op → k.isOperator = true)
    (hsound : Sound l next) (hnext : Blaming next) :
    Blaming fun c => (next >>= fun lhs => do chain admits next (← get).rest.length lhs) c := by
  intro c e d h
  rcases Parser.bind_eq_error h with h | ⟨lhs, after, hlhs, h⟩
  · exact hnext _ _ _ h
  · rcases Parser.bind_eq_error h with hget | ⟨_, _, hget, h⟩ <;> cases hget
    obtain ⟨us, hus, hreads⟩ := hsound _ _ _ hlhs
    obtain ⟨hblames, hhead⟩ := chain_blames hadmits hsound hnext h
    rw [hus]
    exact hblames.behind hreads.balanced.covered fun t ht hkind => absurd hkind (hhead t ht)

theorem product_blames (hsound : Sound .sum inner) (hinner : Blaming inner) :
    Blaming (product inner) :=
  level_blames isOperator_of_factorOperator? (factor_sound hsound) fun c =>
    signed_blames hsound hinner _ c

theorem nested_blames (depth : Nat) : Blaming (nested (S := S) depth) := by
  induction depth with
  | zero => intro c e d h; cases h; exact .of_cause nofun
  | succ depth ih =>
    exact level_blames isOperator_of_termOperator? (product_sound (nested_sound depth))
      (product_blames (nested_sound depth) ih)

/-! ## The whole source -/

/-- Tokens that are parted among those that are not white space are parted in the text. -/
theorem exists_of_solid {before behind : List Token} {t : Token}
    (h : solid ts = before ++ t :: behind) :
    ∃ us vs, ts = us ++ t :: vs ∧ solid us = before ∧ solid vs = behind := by
  obtain ⟨us, ws, rfl, hus, hws⟩ := List.filter_eq_append_iff.1 h
  obtain ⟨blanks, vs, rfl, hblanks, -, hvs⟩ := List.filter_eq_cons_iff.1 hws
  refine ⟨us ++ blanks, vs, by simp, ?_, hvs⟩
  rw [solid, List.filter_append, hus, List.filter_eq_nil_iff.2 hblanks, List.append_nil]

/-- A bracket is to blame for how the formula was read, or stands behind the whole formula. -/
theorem blames_of_parse {source : String} (h : parse (S := S) source = .error e) :
    Blames S (solid (Token.tokenize source)) e ∨
      ∃ us t behind, ∃ f : Formula S, solid (Token.tokenize source) = us ++ t :: behind ∧
        Reads .sum us f ∧ t.kind = .closeParen ∧ e = .on (.unclosedParenthesis false) t.span := by
  have hcomplete : ∃ d,
      Parser.complete (parser (S := S)) (Cursor.ofSource source) = .error e d := by
    unfold parse at h
    split at h <;> cases h
    case h_2 d hd => exact ⟨d, hd⟩
  have hnested := parser_eq_nested (S := S) (Nat.le_refl (Cursor.ofSource source).rest.length)
  obtain ⟨d, hd⟩ := hcomplete
  rcases Parser.bind_eq_error hd with hparser | ⟨f, after, hf, -⟩
  · rw [hnested] at hparser
    exact .inl (nested_blames _ _ _ _ hparser)
  · rw [Parser.complete_of_ok hf, Parser.finish, Cursor.current?] at hd
    rw [hnested] at hf
    obtain ⟨us, hus, hreads⟩ := nested_sound _ _ _ _ hf
    cases hrest : after.skipBlanks.rest with
    | nil =>
      rw [hrest] at hd
      cases hd
    | cons t rest =>
      have hafter := (Token.solid_of_dropWhile after.rest).2 t rest hrest
      simp only [hrest, List.head?_cons] at hd
      split at hd
      case isTrue hkind =>
        cases hd
        exact .inr ⟨us, t, solid rest, f, hus.trans (congrArg _ hafter), hreads, hkind, rfl⟩
      case isFalse =>
        cases hd
        refine .inl (.of_cause fun a ha => ?_)
        cases ha

/-- An opening bracket that is reported is closed exactly if what follows the formula behind it
closes it, and not at all if nothing follows. -/
theorem Blames.opening_of_solid (h : Blames S (solid ts) e)
    (hcause : e.cause = .unclosedParenthesis true) :
    ∃ before t behind, ts = before ++ t :: behind ∧ e.spans = [t.span] ∧ t.kind = .openParen ∧
      ∃ us rest, ∃ f : Tree S, behind = us ++ rest ∧ Derives .sum (Word.ofTokens us) f ∧
        (IsClosed behind ↔ IsClosed rest) ∧
        (¬ IsClosed behind ∨ ∃ u ∈ (solid rest).head?, u.kind ≠ .closeParen) := by
  obtain ⟨_, t, _, _, f, hts, hspans, hkind, hf, hhead⟩ := h.opening hcause
  obtain ⟨before, behind, rfl, -, hbehind⟩ := exists_of_solid hts
  obtain ⟨us, rest, rfl, rfl, rfl⟩ := List.filter_eq_append_iff.1 hbehind
  have hclosed : IsClosed (us ++ rest) ↔ IsClosed rest := hf.balanced.of_solid.isClosed_append
  refine ⟨before, t, _, rfl, hspans, hkind, us, rest, f.tree, rfl, hf.derives, hclosed, ?_⟩
  cases hrest : solid rest with
  | nil =>
    have hbalanced : Balanced rest := .of_solid (by rw [hrest]; exact Token.balanced_nil)
    exact .inl (mt hclosed.1 hbalanced.not_isClosed)
  | cons u _ => exact .inr ⟨u, rfl, hhead u (by rw [← solid, hrest]; rfl)⟩

/-- A closing bracket has a partner before it exactly if what stands there is covered and not
balanced. -/
theorem exists_closing_of_solid {before behind : List Token} {t : Token}
    (hts : solid ts = before ++ t :: behind) (hbefore : Covered before)
    (hlast : Balanced before ∨ ∃ u ∈ before.getLast?, u.kind.isOperator = true) :
    ∃ us vs, ts = us ++ t :: vs ∧ (IsOpened us ↔ ¬ Balanced us) ∧
      (¬ IsOpened us ∨ ∃ u ∈ (solid us).getLast?, u.kind.isOperator = true) := by
  obtain ⟨us, vs, rfl, rfl, -⟩ := exists_of_solid hts
  exact ⟨us, vs, rfl, hbefore.of_solid.isOpened_iff,
    hlast.imp_left fun hbalanced => hbalanced.of_solid.not_isOpened⟩

/-- A source whose error is about a bracket has it where the error points. An opening bracket is
reported if no closing one follows the formula behind it, and rightly so exactly if what is left
there does not close it. A closing bracket is rightly reported exactly if all that stands before it is
balanced; else it stands behind an operator. -/
theorem parse_unclosed {source : String} {opening : Bool} (h : parse (S := S) source = .error e)
    (hcause : e.cause = .unclosedParenthesis opening) :
    ∃ before t behind, Token.tokenize source = before ++ t :: behind ∧ e.spans = [t.span] ∧
      (opening = true → t.kind = .openParen ∧
        ∃ us rest, ∃ f : Tree S, behind = us ++ rest ∧ Derives .sum (Word.ofTokens us) f ∧
          (IsClosed behind ↔ IsClosed rest) ∧
          (¬ IsClosed behind ∨ ∃ u ∈ (solid rest).head?, u.kind ≠ .closeParen)) ∧
      (opening = false → t.kind = .closeParen ∧ (IsOpened before ↔ ¬ Balanced before) ∧
        (¬ IsOpened before ∨ ∃ u ∈ (solid before).getLast?, u.kind.isOperator = true)) := by
  rcases blames_of_parse h with hblames | ⟨us, t, vs, f, hts, hf, hkind, rfl⟩
  · cases opening with
    | true =>
      obtain ⟨before, t, behind, hsource, hspans, hrest⟩ := hblames.opening_of_solid hcause
      exact ⟨before, t, behind, hsource, hspans, fun _ => hrest, nofun⟩
    | false =>
      obtain ⟨us, t, vs, hts, hspans, hkind, hcovered, hoperator⟩ := hblames.closing hcause
      have hlast : Balanced us ∨ ∃ u ∈ us.getLast?, u.kind.isOperator = true := by
        cases hus : us.getLast? with
        | none =>
          rw [List.getLast?_eq_none_iff.1 hus]
          exact .inl Token.balanced_nil
        | some u => exact .inr ⟨u, rfl, hoperator u hus⟩
      obtain ⟨before, behind, hsource, hclosing⟩ := exists_closing_of_solid hts hcovered hlast
      exact ⟨before, t, behind, hsource, hspans, nofun, fun _ => ⟨hkind, hclosing⟩⟩
  · obtain ⟨before, behind, hsource, hclosing⟩ :=
      exists_closing_of_solid hts hf.balanced.covered (.inl hf.balanced)
    refine ⟨before, t, behind, hsource, rfl, fun hopening => ?_, fun _ => ⟨hkind, hclosing⟩⟩
    rw [hopening] at hcause
    cases hcause

theorem parse_unclosed_openCall :
    ∃ e : Located ParseError, parse (S := Float) "Tr(A*X" = .error e ∧
      e.cause = .unclosedParenthesis true ∧
      ∃ before t behind, Token.tokenize "Tr(A*X" = before ++ t :: behind ∧ e.spans = [t.span] ∧
        t.kind = .openParen ∧ ∃ us rest, ∃ f : Tree Float, behind = us ++ rest ∧
          Derives .sum (Word.ofTokens us) f ∧ (IsClosed behind ↔ IsClosed rest) := by
  have hparse : parse (S := Float) "Tr(A*X" =
      .error (.on (.unclosedParenthesis true) ⟨2, 3⟩) := by
    cbv
  obtain ⟨before, t, behind, hsource, hspans, hopening, -⟩ := parse_unclosed hparse rfl
  obtain ⟨hkind, us, rest, f, hbehind, hf, hclosed, -⟩ := hopening rfl
  exact ⟨_, hparse, rfl, before, t, behind, hsource, hspans, hkind, us, rest, f, hbehind, hf,
    hclosed⟩

/-- Both reports can be untrue: in `(A B)` the bracket at the start is closed at the end, and in
`(A+)` the bracket at the end is opened at the start. -/
theorem parse_pairedBrackets :
    (∃ t behind, Token.tokenize "(A B)" = t :: behind ∧
      parse (S := Float) "(A B)" = .error (.on (.unclosedParenthesis true) t.span) ∧
      t.kind = .openParen ∧ IsClosed behind) ∧
    ∃ before t, Token.tokenize "(A+)" = before ++ [t] ∧
      parse (S := Float) "(A+)" = .error (.on (.unclosedParenthesis false) t.span) ∧
      t.kind = .closeParen ∧ IsOpened before := by
  constructor
  · exact ⟨⟨.openParen, ⟨0, 1⟩, "("⟩, [⟨.name, ⟨1, 2⟩, "A"⟩, ⟨.blank, ⟨2, 3⟩, " "⟩,
      ⟨.name, ⟨3, 4⟩, "B"⟩, ⟨.closeParen, ⟨4, 5⟩, ")"⟩], by cbv, by cbv, rfl,
      [_, _, _], _, [], rfl, rfl,
      (balanced_singleton rfl).append ((balanced_singleton rfl).append (balanced_singleton rfl))⟩
  · exact ⟨[⟨.openParen, ⟨0, 1⟩, "("⟩, ⟨.name, ⟨1, 2⟩, "A"⟩, ⟨.plus, ⟨2, 3⟩, "+"⟩],
      ⟨.closeParen, ⟨3, 4⟩, ")"⟩, by cbv, by cbv, rfl,
      [], _, [_, _], rfl, rfl, (balanced_singleton rfl).append (balanced_singleton rfl)⟩

end Formula

end TraceCalculus
