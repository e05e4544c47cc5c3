import TraceCalculus.Proofs.Places
import TraceCalculus.Proofs.Words

/-! # Tokens of an excerpt

If a text is cut at the boundaries of its tokens, the excerpt has the tokens that were there before
(`Token.tokenize_excerpt`), at places that count from its own start.

A token is the longest of its kind, and stays so when the text is cut somewhere behind it
(`Token.split_excerpt`). `Token.Lexed` is the scan without its bound on the steps; it is what the cuts
are made in, before the excerpt (`Lexed.drop`) and behind it (`Lexed.take`).
-/

set_option autoImplicit false

namespace TraceCalculus.Token

open Text (byteLength)

/-! ## One token -/

/-- What is split off is the start of the text, and does not depend on what stands behind the rest. -/
structure Cuts (p : List Char → List Char × List Char) : Prop where
  append : ∀ cs, (p cs).1 ++ (p cs).2 = cs
  excerpt : ∀ {cs lexeme rest after}, p (cs ++ after) = (lexeme, rest ++ after) →
    p cs = (lexeme, rest)

theorem splitWhile_eq {p : Char → Bool} {cs lexeme rest : List Char}
    (h : splitWhile p cs = (lexeme, rest)) :
    cs = lexeme ++ rest ∧ (∀ c ∈ lexeme, p c = true) ∧ ∀ c ∈ rest.head?, p c = false := by
  obtain ⟨rfl, rfl⟩ := Prod.mk.inj h
  refine ⟨List.takeWhile_append_dropWhile.symm,
    fun c hc => List.all_eq_true.1 List.all_takeWhile c hc, fun c hc => ?_⟩
  have hhead := List.head?_dropWhile_not p cs
  rw [Option.mem_def.1 hc] at hhead
  simpa using hhead

theorem cuts_splitWhile (p : Char → Bool) : Cuts (splitWhile p) where
  append _ := List.takeWhile_append_dropWhile
  excerpt {cs lexeme rest after} h := by
    obtain ⟨hcs, hlexeme, hrest⟩ := splitWhile_eq h
    rw [← List.append_assoc, List.append_left_inj] at hcs
    rw [hcs]
    refine splitWhile_append hlexeme fun c hc => hrest c ?_
    rw [List.head?_append, Option.mem_def.1 hc]
    rfl

theorem splitNumber_of_point {cs whole more : List Char} {d : Char}
    (h : splitWhile Char.isDigit cs = (whole, '.' :: d :: more)) (hd : d.isDigit = true) :
    splitNumber cs = (whole ++ '.' :: (splitWhile Char.isDigit (d :: more)).1,
      (splitWhile Char.isDigit (d :: more)).2) := by
  simp only [splitNumber, h, hd, if_true]

theorem splitNumber_of_whole {cs whole rest : List Char}
    (h : splitWhile Char.isDigit cs = (whole, rest))
    (hrest : ¬ ∃ d more, rest = '.' :: d :: more ∧ d.isDigit = true) :
    splitNumber cs = (whole, rest) := by
  simp only [splitNumber, h]
  split
  case h_1 d more => exact if_neg fun hd => hrest ⟨d, more, rfl, hd⟩
  case h_2 => rfl

theorem cuts_splitNumber : Cuts splitNumber where
  append cs := by
    have happend := (cuts_splitWhile Char.isDigit).append
    have hcs := happend cs
    cases hwhole : splitWhile Char.isDigit cs with
    | mk whole left =>
      rw [hwhole] at hcs
      by_cases hpoint : ∃ d more, left = '.' :: d :: more ∧ d.isDigit = true
      · obtain ⟨d, more, rfl, hd⟩ := hpoint
        rw [splitNumber_of_point hwhole hd, List.append_assoc, List.cons_append, happend, hcs]
      · rw [splitNumber_of_whole hwhole hpoint, hcs]
  excerpt {cs lexeme rest after} h := by
    have hwhile := cuts_splitWhile Char.isDigit
    cases hwhole : splitWhile Char.isDigit (cs ++ after) with
    | mk whole left =>
      by_cases hpoint : ∃ d more, left = '.' :: d :: more ∧ d.isDigit = true
      · obtain ⟨d, more, rfl, hd⟩ := hpoint
        rw [splitNumber_of_point hwhole hd] at h
        obtain ⟨rfl, hleft⟩ := Prod.mk.inj h
        generalize hfraction : (splitWhile Char.isDigit (d :: more)).1 = fraction
        have hsplit : splitWhile Char.isDigit (d :: more) = (fraction, rest ++ after) :=
          Prod.ext hfraction hleft
        obtain ⟨hmore, -, hstop⟩ := splitWhile_eq hsplit
        -- a digit stands behind the point, so the numeral goes on up to the cut
        cases fraction with
        | nil =>
          rw [← show d :: more = rest ++ after from hmore] at hstop
          simp [hd] at hstop
        | cons d' fraction =>
          rw [List.cons_append, List.cons.injEq] at hmore
          obtain ⟨rfl, rfl⟩ := hmore
          have hcs : splitWhile Char.isDigit cs = (whole, '.' :: d :: (fraction ++ rest)) :=
            hwhile.excerpt (hwhole.trans (by simp))
          have htail :
              splitWhile Char.isDigit (d :: (fraction ++ rest)) = (d :: fraction, rest) :=
            hwhile.excerpt (Eq.trans (by simp) hsplit)
          rw [splitNumber_of_point hcs hd, htail]
      · rw [splitNumber_of_whole hwhole hpoint] at h
        obtain ⟨rfl, rfl⟩ := Prod.mk.inj h
        refine splitNumber_of_whole (hwhile.excerpt hwhole) ?_
        rintro ⟨d, more, rfl, hd⟩
        exact hpoint ⟨d, more ++ after, rfl, hd⟩

/-- The first character says how the token is split off, and belongs to it. -/
theorem exists_cuts (c : Char) :
    ∃ kind p, Cuts p ∧ (∀ cs, (p (c :: cs)).1 ≠ []) ∧ ∀ cs, split c cs = (kind, p (c :: cs)) := by
  by_cases hseparator : isSeparator c = true
  · refine ⟨.blank, _, cuts_splitWhile isSeparator, fun cs => ?_, fun cs => by simp [split, *]⟩
    simp [splitWhile, hseparator]
  by_cases hname : isNameStart c = true
  · refine ⟨.name, _, cuts_splitWhile isNameRest, fun cs => ?_, fun cs => by simp [split, *]⟩
    simp [splitWhile, isNameRest, hname]
  by_cases hdigit : c.isDigit = true
  · refine ⟨.number, _, cuts_splitNumber, fun cs => ?_, fun cs => by simp [split, *]⟩
    cases hwhole : splitWhile Char.isDigit (c :: cs) with
    | mk whole left =>
      have hne : whole ≠ [] := by
        have hfirst := congrArg Prod.fst hwhole
        simp only [splitWhile, List.takeWhile_cons, hdigit, if_true] at hfirst
        simp [← hfirst]
      by_cases hpoint : ∃ d more, left = '.' :: d :: more ∧ d.isDigit = true
      · obtain ⟨d, more, rfl, hd⟩ := hpoint
        rw [splitNumber_of_point hwhole hd]
        exact List.append_ne_nil_of_left_ne_nil hne _
      · rwa [splitNumber_of_whole hwhole hpoint]
  · refine ⟨(punctuation? c).getD .symbol, fun cs => (cs.take 1, cs.drop 1),
      ⟨fun cs => List.take_append_drop 1 cs, ?_⟩, fun cs => by simp, fun cs => by simp [split, *]⟩
    intro cs lexeme rest after h
    obtain ⟨rfl, hrest⟩ := Prod.mk.inj h
    cases cs with
    | nil =>
      have hlength := congrArg List.length hrest
      simp only [List.nil_append, List.length_drop, List.length_append] at hlength
      cases after with
      | nil => simp_all
      | cons => simp at hlength; omega
    | cons c cs =>
      rw [List.cons_append, List.drop_one, List.tail_cons, List.append_left_inj] at hrest
      rw [← hrest]
      rfl

theorem append_split {c : Char} {cs lexeme rest : List Char} {kind : Kind}
    (h : split c cs = (kind, lexeme, rest)) : c :: cs = lexeme ++ rest ∧ lexeme ≠ [] := by
  obtain ⟨kind', p, hp, hne, hsplit⟩ := exists_cuts c
  have hparts : p (c :: cs) = (lexeme, rest) := (Prod.mk.inj ((hsplit cs).symm.trans h)).2
  have happend := hp.append (c :: cs)
  have hlexeme := hne cs
  rw [hparts] at happend hlexeme
  exact ⟨happend.symm, hlexeme⟩

theorem split_excerpt {c : Char} {cs lexeme rest after : List Char} {kind : Kind}
    (h : split c (cs ++ after) = (kind, lexeme, rest ++ after)) :
    split c cs = (kind, lexeme, rest) := by
  obtain ⟨kind', p, hp, -, hsplit⟩ := exists_cuts c
  rw [hsplit] at h ⊢
  obtain ⟨rfl, hparts⟩ := Prod.mk.inj h
  rw [hp.excerpt hparts]

/-! ## All tokens -/

/-- The tokens of a text that starts at an offset. -/
inductive Lexed : Nat → List Char → List Token → Prop where
  | nil (offset : Nat) : Lexed offset [] []
  | cons {offset : Nat} {c : Char} {cs lexeme rest : List Char} {kind : Kind} {ts : List Token} :
    split c cs = (kind, lexeme, rest) → Lexed (offset + byteLength lexeme) rest ts →
      Lexed offset (c :: cs)
        (⟨kind, ⟨offset, offset + byteLength lexeme⟩, String.ofList lexeme⟩ :: ts)

theorem lexed_scan {steps offset : Nat} {cs : List Char} (h : cs.length ≤ steps) :
    Lexed offset cs (scan steps offset cs) := by
  induction steps generalizing offset cs with
  | zero =>
    obtain rfl := List.length_eq_zero_iff.1 (Nat.le_zero.1 h)
    exact .nil offset
  | succ steps ih =>
    cases cs with
    | nil => exact .nil offset
    | cons c cs =>
      rw [scan]
      cases hsplit : split c cs with
      | mk kind parts =>
        obtain ⟨hcs, hlexeme⟩ := append_split hsplit
        have hlength := congrArg List.length hcs
        have hpos := List.length_pos_iff.2 hlexeme
        simp only [List.length_cons, List.length_append] at h hlength
        exact .cons hsplit (ih (by omega))

theorem lexed_tokenize (source : String) : Lexed 0 source.toList (tokenize source) :=
  lexed_scan (Nat.le_refl _)

/-! ## Tokens in their places -/

/-- The characters of the tokens. -/
def chars (ts : List Token) : List Char := ts.flatMap fun t => t.lexeme.toList

@[simp] theorem chars_nil : chars [] = [] := rfl

@[simp] theorem chars_cons (t : Token) (ts : List Token) :
    chars (t :: ts) = t.lexeme.toList ++ chars ts := rfl

@[simp] theorem chars_append (us vs : List Token) : chars (us ++ vs) = chars us ++ chars vs :=
  List.flatMap_append

/-- The token in a text that has `offset` more bytes before it. -/
def shift (offset : Nat) (t : Token) : Token := { t with span := t.span.shift offset }

@[simp] theorem span_shift (offset : Nat) (t : Token) :
    (t.shift offset).span = t.span.shift offset := rfl

@[simp] theorem lexeme_shift (offset : Nat) (t : Token) : (t.shift offset).lexeme = t.lexeme := rfl

@[simp] theorem word_shift (offset : Nat) (t : Token) : (t.shift offset).word = t.word := rfl

@[simp] theorem solid_shift (offset : Nat) (ts : List Token) :
    solid (ts.map (shift offset)) = (solid ts).map (shift offset) :=
  List.filter_map ..

namespace Lexed

variable {offset : Nat} {cs : List Char} {ts us vs : List Token}

/-- A text has its tokens only once. -/
theorem unique (h : Lexed offset cs ts) (h' : Lexed offset cs us) : ts = us := by
  induction h generalizing us with
  | nil => cases h'; rfl
  | cons hsplit _ ih =>
    cases h' with
    | cons hsplit' hrest =>
      rw [hsplit] at hsplit'
      cases hsplit'
      rw [ih hrest]

theorem chars_eq (h : Lexed offset cs ts) : chars ts = cs := by
  induction h with
  | nil => rfl
  | cons hsplit _ ih => rw [chars_cons, ih, String.toList_ofList, (append_split hsplit).1]

/-- The tokens behind some of the tokens are those of the text behind them. -/
theorem drop (h : Lexed offset cs (us ++ vs)) :
    Lexed (offset + byteLength (chars us)) (chars vs) vs := by
  induction us generalizing offset cs with
  | nil =>
    rw [← h.chars_eq] at h
    exact h
  | cons u us ih =>
    cases h with
    | cons hsplit hrest =>
      have htail := ih hrest
      rwa [chars_cons, String.toList_ofList, Text.byteLength_append, ← Nat.add_assoc]

/-- The tokens before some of the tokens are those of the text before them. -/
theorem take (h : Lexed offset cs (us ++ vs)) : Lexed offset (chars us) us := by
  induction us generalizing offset cs with
  | nil => exact .nil offset
  | cons u us ih =>
    cases h with
    | @cons _ c cs lexeme rest kind _ hsplit hrest =>
      have hall : chars us ++ chars vs = rest := (chars_append us vs).symm.trans hrest.chars_eq
      obtain ⟨hcs, hne⟩ := append_split hsplit
      obtain ⟨d, lexeme, rfl⟩ := List.exists_cons_of_ne_nil hne
      rw [List.cons_append, List.cons.injEq] at hcs
      obtain ⟨rfl, rfl⟩ := hcs
      rw [chars_cons, String.toList_ofList, List.cons_append]
      have htoken : split c (lexeme ++ chars us ++ chars vs) =
          (kind, c :: lexeme, chars us ++ chars vs) := by
        rwa [List.append_assoc, hall]
      exact .cons (split_excerpt htoken) (ih hrest)

/-- Tokens stand where their characters do. -/
theorem span_eq (h : Lexed offset cs ts) (us : List Token) (t : Token) (vs : List Token)
    (hts : ts = us ++ t :: vs) :
    t.span.start = offset + byteLength (chars us) ∧
      t.span.stop = offset + byteLength (chars (us ++ [t])) := by
  rw [hts] at h
  have ht := h.drop
  generalize chars (t :: vs) = ds at ht
  cases ht with
  | cons => simp [Nat.add_assoc]

/-- The tokens of a text further behind. -/
theorem shift (h : Lexed offset cs ts) (further : Nat) :
    Lexed (offset + further) cs (ts.map (Token.shift further)) := by
  induction h with
  | nil => exact .nil _
  | cons hsplit _ ih =>
    have hcons := Lexed.cons hsplit (by rwa [Nat.add_right_comm] at ih)
    rw [Nat.add_right_comm] at hcons
    exact hcons

end Lexed

/-- No token is empty, and none starts before the one in front of it stops. -/
structure InOrder (ts : List Token) : Prop where
  nonempty : ∀ t ∈ ts, t.span.start < t.span.stop
  apart : ts.Pairwise fun t u => t.span.stop ≤ u.span.start

theorem InOrder.sublist {us ts : List Token} (h : InOrder ts) (hsub : us.Sublist ts) :
    InOrder us :=
  ⟨fun t ht => h.nonempty t (hsub.subset ht), h.apart.sublist hsub⟩

theorem Lexed.le_start {offset : Nat} {cs : List Char} {ts : List Token}
    (h : Lexed offset cs ts) : ∀ t ∈ ts, offset ≤ t.span.start := by
  intro t ht
  obtain ⟨us, vs, hts⟩ := List.append_of_mem ht
  rw [(h.span_eq us t vs hts).1]
  exact Nat.le_add_right _ _

theorem Lexed.inOrder {offset : Nat} {cs : List Char} {ts : List Token}
    (h : Lexed offset cs ts) : InOrder ts := by
  induction h with
  | nil => exact ⟨nofun, .nil⟩
  | cons hsplit hrest ih =>
    refine ⟨List.forall_mem_cons.2 ⟨?_, ih.nonempty⟩, .cons hrest.le_start ih.apart⟩
    obtain ⟨c, cs, rfl⟩ := List.exists_cons_of_ne_nil (append_split hsplit).2
    have hpos := c.utf8Size_pos
    simp only [Text.byteLength_cons]
    omega

/-! ## Excerpts -/

/-- Between the boundaries of tokens a text has the tokens that the whole has there. -/
theorem tokenize_excerpt {source : String} {before ts after : List Token}
    (h : tokenize source = before ++ ts ++ after) :
    ts = (tokenize (String.ofList (chars ts))).map (shift (byteLength (chars before))) := by
  have hall := lexed_tokenize source
  rw [h, List.append_assoc] at hall
  have hexcerpt := lexed_tokenize (String.ofList (chars ts))
  rw [String.toList_ofList] at hexcerpt
  exact hall.drop.take.unique (hexcerpt.shift (byteLength (chars before)))

end TraceCalculus.Token
