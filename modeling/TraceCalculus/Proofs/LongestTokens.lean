import TraceCalculus.Proofs.Spans

/-! # Longest tokens

Each kind of token has a class of texts (`Token.Kind.Admits`). The token at the start of a text is the
longest start of it that is in any class. A single character can be in two classes, and is then a
symbol only if it is in no other (`Token.Longest`).

Cutting a source text yields just these tokens, one behind the other, and nothing of the text is lost
(`Token.tokenize_longest`). Whatever finds the longest token at the start of a text yields the same
tokens, if it is asked again and again for as long as it finds one (`Token.lexWith`): it always finds
one, since a character that starts no other token is a symbol or, at the end of a line, white space.
-/

set_option autoImplicit false

namespace TraceCalculus.Token

open Text (byteLength)
open Decimal (IsNumeral)

/-- The texts of a kind of token. -/
def Kind.Admits : Kind → List Char → Prop
  | .blank, cs => cs ≠ [] ∧ ∀ c ∈ cs, isSeparator c = true
  | .plus, cs => cs = ['+']
  | .minus, cs => cs = ['-']
  | .times, cs => cs = ['*']
  | .quote, cs => cs = ['\x27']
  | .dot, cs => cs = ['.']
  | .openParen, cs => cs = ['(']
  | .closeParen, cs => cs = [')']
  | .name, cs => IsName cs
  | .number, cs => IsNumeral cs
  | .symbol, cs => ∃ c, cs = [c] ∧ c ≠ '\n'

/-- Of two kinds with the same text the one with the higher priority counts. -/
def Kind.priority : Kind → Nat
  | .symbol => 0
  | _ => 1

/-- The text of the kind at the start of `cs` that no other token outdoes. -/
structure Longest (cs : List Char) (kind : Kind) (lexeme : List Char) : Prop where
  start : lexeme <+: cs
  admits : kind.Admits lexeme
  longest : ∀ (other : Kind) (text : List Char), text <+: cs → other.Admits text →
    text.length ≤ lexeme.length
  preferred : ∀ other : Kind, other.Admits lexeme → other.priority ≤ kind.priority

/-- A function that finds the longest token at the start of a text, if there is a token. -/
structure LongestMatch (next : List Char → Option (Kind × List Char)) : Prop where
  found : ∀ {cs kind lexeme}, next cs = some (kind, lexeme) → Longest cs kind lexeme
  missed : ∀ {cs}, next cs = none → ∀ (kind : Kind) (lexeme : List Char), lexeme <+: cs →
    ¬ kind.Admits lexeme

/-- The tokens that are found one behind the other, up to where none is found. -/
def lexWith (next : List Char → Option (Kind × List Char)) : Nat → Nat → List Char → List Token
  | 0, _, _ => []
  | steps + 1, offset, cs =>
    match next cs with
    | none => []
    | some (kind, lexeme) =>
      let stop := offset + byteLength lexeme
      ⟨kind, ⟨offset, stop⟩, String.ofList lexeme⟩ ::
        lexWith next steps stop (cs.drop lexeme.length)

/-- Each token starts where the one before it stops. -/
inductive Contiguous : Nat → Nat → List Token → Prop
  | nil (offset : Nat) : Contiguous offset offset []
  | cons {t : Token} {ts : List Token} {stop : Nat} :
      Contiguous t.span.stop stop ts → Contiguous t.span.start stop (t :: ts)

/-! ## The classes of texts -/

section Classes

variable {kind other : Kind} {c : Char} {cs : List Char}

theorem Kind.Admits.ne_nil (h : kind.Admits cs) : cs ≠ [] := by
  cases kind with
  | blank => exact h.1
  | number => exact IsNumeral.ne_nil h
  | name =>
    obtain ⟨c, rest, rfl, -⟩ := h
    exact List.cons_ne_nil c rest
  | symbol =>
    obtain ⟨c, rfl, -⟩ := h
    exact List.cons_ne_nil c []
  | _ =>
    rintro rfl
    cases h

/-- The first character of a text tells its kind, unless the text is a symbol. -/
theorem Kind.Admits.kind_eq (h : kind.Admits (c :: cs)) (hsymbol : kind ≠ .symbol)
    (rest : List Char) : (split c rest).1 = kind := by
  cases kind with
  | blank =>
    have hc : isSeparator c = true := h.2 c (.head _)
    simp only [split, hc, if_true]
  | name =>
    obtain ⟨d, ds, hd, hstart, -⟩ := h
    obtain ⟨rfl, rfl⟩ := List.cons.inj hd
    simp only [split, not_separator (.inl hstart), hstart, if_true]
    rfl
  | number =>
    have hdigit : c.isDigit = true := IsNumeral.isDigit_head h
    simp only [split, not_separator (.inr hdigit), not_nameStart_of_isDigit hdigit, hdigit, if_true]
    rfl
  | symbol => exact absurd rfl hsymbol
  | _ =>
    obtain ⟨rfl, rfl⟩ := List.cons.inj h
    rfl

/-- No text is in two classes, symbols apart. -/
theorem Kind.Admits.kind_unique (h : kind.Admits cs) (h' : other.Admits cs)
    (hpriority : kind.priority = other.priority) : kind = other := by
  obtain ⟨c, cs, rfl⟩ := List.exists_cons_of_ne_nil h.ne_nil
  by_cases hkind : kind = .symbol
  · subst hkind
    cases other <;> first | rfl | cases hpriority
  · have hother : other ≠ .symbol := by
      rintro rfl
      cases kind <;> first | exact hkind rfl | cases hpriority
    rw [← h.kind_eq hkind [], ← h'.kind_eq hother []]

end Classes

/-! ## The first token -/

section First

variable {kind other : Kind} {c : Char} {cs lexeme rest text : List Char}

theorem prefix_splitWhile {p : Char → Bool} (htext : text <+: cs) (hall : ∀ c ∈ text, p c = true) :
    text <+: (splitWhile p cs).1 := by
  obtain ⟨after, rfl⟩ := htext
  rw [splitWhile, List.takeWhile_append_of_pos hall]
  exact List.prefix_append _ _

/-- A numeral goes on behind its point if a digit stands there. -/
theorem prefix_splitNumber (htext : text <+: cs) (h : IsNumeral text) :
    text.length ≤ (splitNumber cs).1.length := by
  cases hwhole : splitWhile Char.isDigit cs with
  | mk whole left =>
    cases h with
    | whole _ hds =>
      have hle : text.length ≤ whole.length := by
        simpa [hwhole] using (prefix_splitWhile htext hds).length_le
      by_cases hpoint : ∃ d more, left = '.' :: d :: more ∧ d.isDigit = true
      · obtain ⟨d, more, rfl, hd⟩ := hpoint
        rw [splitNumber_of_point hwhole hd, List.length_append]
        omega
      · rwa [splitNumber_of_whole hwhole hpoint]
    | @point ds fs _ hds hne hfs =>
      obtain ⟨after, rfl⟩ := htext
      obtain ⟨d, fs, rfl⟩ := List.exists_cons_of_ne_nil hne
      have hpoint : ∀ c ∈ ('.' :: d :: (fs ++ after)).head?, c.isDigit = false := by
        intro c hc
        cases hc
        rfl
      rw [List.append_assoc, List.cons_append, List.cons_append, splitWhile_append hds hpoint]
        at hwhole
      obtain ⟨rfl, rfl⟩ := Prod.mk.inj hwhole
      have hfraction : d :: fs <+: (splitWhile Char.isDigit (d :: (fs ++ after))).1 :=
        prefix_splitWhile (List.prefix_append (d :: fs) after) hfs
      have hle := hfraction.length_le
      rw [List.append_assoc, List.cons_append, List.cons_append,
        splitNumber_of_point (splitWhile_append hds hpoint) (hfs d (.head _))]
      simp only [List.length_append, List.length_cons] at hle ⊢
      omega

theorem isNumeral_splitNumber (hdigit : c.isDigit = true) (cs : List Char) :
    IsNumeral (splitNumber (c :: cs)).1 := by
  cases hwhole : splitWhile Char.isDigit (c :: cs) with
  | mk whole left =>
    obtain ⟨hcs, hds, -⟩ := splitWhile_eq hwhole
    have hne : whole ≠ [] := by
      have hstart := prefix_splitWhile (p := Char.isDigit) (List.prefix_append [c] cs)
        (List.forall_mem_singleton.2 hdigit)
      rw [List.singleton_append, hwhole] at hstart
      exact hstart.ne_nil (List.cons_ne_nil c [])
    by_cases hpoint : ∃ d more, left = '.' :: d :: more ∧ d.isDigit = true
    · obtain ⟨d, more, rfl, hd⟩ := hpoint
      rw [splitNumber_of_point hwhole hd]
      refine .point hne hds ?_ fun c hc => List.all_eq_true.1 List.all_takeWhile c hc
      simp [splitWhile, hd]
    · rw [splitNumber_of_whole hwhole hpoint]
      exact .whole hne hds

/-- The four ways to split off a token. -/
theorem split_cases (h : split c cs = (kind, lexeme, rest)) :
    (isSeparator c = true ∧ kind = .blank ∧ splitWhile isSeparator (c :: cs) = (lexeme, rest)) ∨
    (isNameStart c = true ∧ kind = .name ∧ splitWhile isNameRest (c :: cs) = (lexeme, rest)) ∨
    (c.isDigit = true ∧ kind = .number ∧ splitNumber (c :: cs) = (lexeme, rest)) ∨
    isSeparator c = false ∧ kind = (punctuation? c).getD .symbol ∧ lexeme = [c] := by
  unfold split at h
  split at h
  case isTrue hc =>
    obtain ⟨rfl, hparts⟩ := Prod.mk.inj h
    exact .inl ⟨hc, rfl, hparts⟩
  case isFalse hseparator =>
    split at h
    case isTrue hc =>
      obtain ⟨rfl, hparts⟩ := Prod.mk.inj h
      exact .inr (.inl ⟨hc, rfl, hparts⟩)
    case isFalse =>
      split at h
      case isTrue hc =>
        obtain ⟨rfl, hparts⟩ := Prod.mk.inj h
        exact .inr (.inr (.inl ⟨hc, rfl, hparts⟩))
      case isFalse =>
        obtain ⟨rfl, hparts⟩ := Prod.mk.inj h
        exact .inr (.inr (.inr ⟨by simpa using hseparator, rfl, (Prod.mk.inj hparts).1.symm⟩))

theorem admits_punctuation (h : isSeparator c = false) :
    ((punctuation? c).getD .symbol).Admits [c] := by
  unfold punctuation?
  split
  case h_8 =>
    refine ⟨c, rfl, ?_⟩
    rintro rfl
    cases h
  all_goals rfl

/-- What is split off is in the class of its kind. -/
theorem admits_split (h : split c cs = (kind, lexeme, rest)) : kind.Admits lexeme := by
  have hne := (append_split h).2
  rcases split_cases h with ⟨-, rfl, hparts⟩ | ⟨-, rfl, -⟩ | ⟨hdigit, rfl, hparts⟩ | ⟨hc, rfl, rfl⟩
  · exact ⟨hne, (splitWhile_eq hparts).2.1⟩
  · exact isName_of_split h
  · have hnumeral := isNumeral_splitNumber hdigit cs
    rwa [hparts] at hnumeral
  · exact admits_punctuation hc

theorem punctuation_notMem (c : Char) :
    (punctuation? c).getD .symbol ∉ [Kind.blank, .name, .number] := by
  unfold punctuation?
  split <;> decide

/-- The texts of all other kinds are single characters. -/
theorem Kind.Admits.length_eq_one (h : kind.Admits text)
    (hkind : kind ∉ [Kind.blank, .name, .number]) : text.length = 1 := by
  cases kind with
  | symbol =>
    obtain ⟨c, rfl, -⟩ := h
    rfl
  | blank | name | number => exact absurd (by decide) hkind
  | _ =>
    cases h
    rfl

/-- No longer text of the class starts there. -/
theorem length_le_of_split (h : split c cs = (kind, lexeme, rest)) (htext : text <+: c :: cs)
    (hadmits : kind.Admits text) : text.length ≤ lexeme.length := by
  rcases split_cases h with ⟨-, rfl, hparts⟩ | ⟨-, rfl, hparts⟩ | ⟨-, rfl, hparts⟩ | ⟨-, rfl, rfl⟩
  · have hstart := prefix_splitWhile htext hadmits.2
    rw [hparts] at hstart
    exact hstart.length_le
  · obtain ⟨d, ds, rfl, hd, hds⟩ := hadmits
    have hall : ∀ c ∈ d :: ds, isNameRest c = true :=
      List.forall_mem_cons.2 ⟨by simp [isNameRest, hd], hds⟩
    have hstart := prefix_splitWhile htext hall
    rw [hparts] at hstart
    exact hstart.length_le
  · have hle := prefix_splitNumber htext hadmits
    rwa [hparts] at hle
  · exact (hadmits.length_eq_one (punctuation_notMem c)).le

/-- Cutting a text finds the longest token at its start. -/
theorem longest_split (h : split c cs = (kind, lexeme, rest)) : Longest (c :: cs) kind lexeme := by
  obtain ⟨hcs, hne⟩ := append_split h
  have hkind : ∀ {other : Kind} {text}, text <+: c :: cs → other.Admits text →
      other = .symbol ∨ other = kind := by
    intro other text htext hadmits
    obtain ⟨d, ds, rfl⟩ := List.exists_cons_of_ne_nil hadmits.ne_nil
    obtain rfl : d = c := (List.cons_prefix_cons.1 htext).1
    by_cases hsymbol : other = .symbol
    · exact .inl hsymbol
    · have hfirst := hadmits.kind_eq hsymbol cs
      rw [h] at hfirst
      exact .inr hfirst.symm
  have hstart : lexeme <+: c :: cs := ⟨rest, hcs.symm⟩
  refine ⟨hstart, admits_split h, fun other text htext hadmits => ?_, fun other hadmits => ?_⟩
  · rcases hkind htext hadmits with rfl | rfl
    · obtain ⟨d, rfl, -⟩ := hadmits
      exact List.length_pos_iff.2 hne
    · exact length_le_of_split h htext hadmits
  · rcases hkind hstart hadmits with rfl | rfl
    · exact Nat.zero_le _
    · exact Nat.le_refl _

/-- A text starts with one longest token only. -/
theorem Longest.unique {other : Kind} {text : List Char} (h : Longest cs kind lexeme)
    (h' : Longest cs other text) : kind = other ∧ lexeme = text := by
  have hlength : lexeme.length = text.length :=
    Nat.le_antisymm (h'.longest kind lexeme h.start h.admits)
      (h.longest other text h'.start h'.admits)
  have hstart := List.prefix_of_prefix_length_le h.start h'.start hlength.le
  obtain rfl : lexeme = text := hstart.eq_of_length hlength
  have hpriority : kind.priority = other.priority :=
    Nat.le_antisymm (h'.preferred kind h.admits) (h.preferred other h'.admits)
  exact ⟨h.admits.kind_unique h'.admits hpriority, rfl⟩

/-- A symbol is a character that is in no other class. -/
theorem Longest.of_symbol (h : Longest cs .symbol lexeme) :
    (∃ c, lexeme = [c]) ∧ ∀ other : Kind, other.Admits lexeme → other = .symbol := by
  refine ⟨?_, fun other hother => ?_⟩
  · obtain ⟨c, hc, -⟩ := h.admits
    exact ⟨c, hc⟩
  · have hpriority := h.preferred other hother
    cases other <;> first | rfl | cases hpriority

end First

/-! ## All tokens -/

section All

variable {next : List Char → Option (Kind × List Char)} {offset : Nat} {kind : Kind} {c : Char}
  {cs lexeme rest : List Char} {ts : List Token}

/-- Where there are characters there is a token, and it is the one that is split off. -/
theorem LongestMatch.next_cons (h : LongestMatch next) (hsplit : split c cs = (kind, lexeme, rest)) :
    next (c :: cs) = some (kind, lexeme) := by
  have hlongest := longest_split hsplit
  cases hn : next (c :: cs) with
  | none => exact absurd hlongest.admits (h.missed hn _ _ hlongest.start)
  | some found =>
    obtain ⟨hkind, hlexeme⟩ := (h.found hn).unique hlongest
    exact congrArg some (Prod.ext hkind hlexeme)

theorem LongestMatch.next_nil (h : LongestMatch next) : next [] = none := by
  cases hn : next [] with
  | none => rfl
  | some found => exact absurd (List.prefix_nil.1 (h.found hn).start) (h.found hn).admits.ne_nil

theorem LongestMatch.lexWith_eq (h : LongestMatch next) (steps offset : Nat) (cs : List Char) :
    lexWith next steps offset cs = scan steps offset cs := by
  induction steps generalizing offset cs with
  | zero => rfl
  | succ steps ih =>
    cases cs with
    | nil => simp only [lexWith, h.next_nil, scan]
    | cons c cs =>
      cases hsplit : split c cs with
      | mk kind parts =>
        have hrest : (c :: cs).drop parts.1.length = parts.2 := by
          rw [(append_split hsplit).1, List.drop_left]
        simp only [lexWith, h.next_cons hsplit, scan, hsplit, hrest, ih]

theorem Lexed.contiguous (h : Lexed offset cs ts) :
    Contiguous offset (offset + byteLength cs) ts := by
  induction h with
  | nil offset => exact .nil offset
  | cons hsplit _ ih =>
    rw [(append_split hsplit).1, Text.byteLength_append, ← Nat.add_assoc]
    exact .cons (t := ⟨_, ⟨_, _⟩, _⟩) ih

/-- Every token is the longest at its place. -/
theorem Lexed.longest (h : Lexed offset cs ts) {us vs : List Token} {t : Token}
    (hts : ts = us ++ t :: vs) :
    Longest (t.lexeme.toList ++ chars vs) t.kind t.lexeme.toList := by
  rw [hts] at h
  have ht := h.drop
  rw [chars_cons] at ht
  generalize hds : t.lexeme.toList ++ chars vs = ds at ht
  cases ht with
  | cons hsplit =>
    rw [String.toList_ofList]
    exact longest_split hsplit

/-- The token at the start of a text. -/
def first? : List Char → Option (Kind × List Char)
  | [] => none
  | c :: cs => some ((split c cs).1, (split c cs).2.1)

theorem longestMatch_first : LongestMatch first? where
  found {cs kind lexeme} h := by
    cases cs with
    | nil => cases h
    | cons c cs =>
      obtain ⟨rfl, rfl⟩ := Prod.mk.inj (Option.some.inj h)
      exact longest_split rfl
  missed {cs} h kind lexeme hstart hadmits := by
    cases cs with
    | nil => exact hadmits.ne_nil (List.prefix_nil.1 hstart)
    | cons => cases h

theorem join_lexemes (ts : List Token) :
    String.join (ts.map Token.lexeme) = String.ofList (chars ts) := by
  rw [← String.ofList_toList (s := String.join _), String.toList_join, List.flatMap_map]
  rfl

theorem byteLength_toList (source : String) : byteLength source.toList = source.utf8ByteSize := by
  have hlength : ∀ cs, String.utf8Len cs = byteLength cs := by
    intro cs
    induction cs with
    | nil => rfl
    | cons c cs ih => rw [String.utf8Len_cons, Text.byteLength_cons, ih, Nat.add_comm]
  rw [← hlength, ← String.utf8ByteSize_ofList, String.ofList_toList]

/-- Nothing of a text is lost in its tokens, and each token is the longest at its place. -/
theorem tokenize_longest (h : LongestMatch next) (source : String) :
    (∀ steps, source.toList.length ≤ steps →
      lexWith next steps 0 source.toList = tokenize source) ∧
    String.join ((tokenize source).map Token.lexeme) = source ∧
    Contiguous 0 source.utf8ByteSize (tokenize source) ∧
    ∀ us t vs, tokenize source = us ++ t :: vs →
      t.lexeme ≠ "" ∧ Text.Spells source.toList t.span t.lexeme.toList ∧
      Longest (t.lexeme.toList ++ chars vs) t.kind t.lexeme.toList ∧
      (t.kind = .symbol → (∃ c, t.lexeme.toList = [c]) ∧
        ∀ other : Kind, other.Admits t.lexeme.toList → other = .symbol) := by
  have hlexed := lexed_tokenize source
  refine ⟨fun steps hsteps => ?_, ?_, ?_, fun us t vs hts => ?_⟩
  · rw [h.lexWith_eq]
    exact (lexed_scan hsteps).unique hlexed
  · rw [join_lexemes, hlexed.chars_eq, String.ofList_toList]
  · have hall := hlexed.contiguous
    rwa [byteLength_toList, Nat.zero_add] at hall
  · have hlongest := hlexed.longest hts
    obtain ⟨hstart, hstop⟩ := hlexed.span_eq us t vs hts
    refine ⟨fun hempty => ?_, ⟨chars us, chars vs, ?_, ?_, ?_⟩, hlongest, fun hkind => ?_⟩
    · rw [hempty] at hlongest
      exact hlongest.admits.ne_nil rfl
    · rw [← hlexed.chars_eq, hts, chars_append, chars_cons, List.append_assoc]
    · rw [hstart, Nat.zero_add]
    · rw [hstop, Nat.zero_add, chars_append, chars_cons, chars_nil, List.append_nil]
    · rw [hkind] at hlongest
      exact hlongest.of_symbol

theorem tokenize_longest_pointName : LongestMatch first? ∧
    (lexWith first? 3 0 "1.x".toList).map (fun t => (t.kind, t.lexeme)) =
      [(.number, "1"), (.dot, "."), (.name, "x")] ∧
    Longest "1.x".toList .number "1".toList := by
  have hall := tokenize_longest longestMatch_first "1.x"
  refine ⟨longestMatch_first, ?_, ?_⟩
  · rw [hall.1 3 (by decide)]
    decide
  · exact (hall.2.2.2 [] ⟨.number, ⟨0, 1⟩, "1"⟩
      [⟨.dot, ⟨1, 2⟩, "."⟩, ⟨.name, ⟨2, 3⟩, "x"⟩] (by decide)).2.2.1

end All

end TraceCalculus.Token
