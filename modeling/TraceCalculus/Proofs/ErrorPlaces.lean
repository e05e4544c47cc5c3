import Mathlib
import TraceCalculus.Proofs.Offences
import TraceCalculus.Proofs.Spans

/-! # Where errors point

A source that is refused, by the parser or for its meaning, is refused with one region of it, and
this region is empty only where the source ended too early (`Expr.read_error_wellFormed`). What a
reader complains about is a token, a stretch of tokens, what is left of the source, or that nothing is
left (`Parser.Refusal`), by induction on the readers (`Parser.Points`); what has no meaning is inside
the formula. Tokens start and stop between characters, and so do these regions.

A reader that looks whether a sign or an operator is next complains that there is none, but nobody
hears of it: whoever called it goes on with something else.
-/

set_option autoImplicit false

namespace TraceCalculus

open Text (byteLength)

namespace Parser

/-- A region with something in it that a reader can point at: a token, a stretch of tokens, or what
follows a token. -/
inductive Pointed (ts : List Token) (stop : Nat) : Span → Prop
  | token {t : Token} : t ∈ ts → Pointed ts stop t.span
  | stretch {t u : Token} : [t, u].Sublist ts → Pointed ts stop (t.span.through u.span)
  | rest {t : Token} : t ∈ ts → Pointed ts stop (t.span.through (.point stop))

/-- A complaint of a reader: nothing is left to read, or there is a region to blame. That no such token
is next is no complaint. -/
inductive Refusal (ts : List Token) (stop : Nat) : Located ParseError → Prop
  | ended : Refusal ts stop (.on .unexpectedEnd (.point stop))
  | pointed {cause : ParseError} {s : Span} (hcause : cause ≠ .nonFatal)
      (hend : cause ≠ .unexpectedEnd) (hs : Pointed ts stop s) : Refusal ts stop (.on cause s)

variable {ts : List Token} {stop : Nat} {α β : Type}

/-- The cursor stands among the tokens. -/
structure Among (ts : List Token) (stop : Nat) (c : Cursor) : Prop where
  rest : c.rest <:+ ts
  stop : c.stop = stop

/-- The cursor is still among the tokens, or the reader has a complaint. -/
def Aims (ts : List Token) (stop : Nat) : EStateM.Result (Located ParseError) Cursor α → Prop
  | .ok _ c => Among ts stop c
  | .error e _ => Refusal ts stop e

/-- From among the tokens the reader stays there or has a complaint. -/
def Points (ts : List Token) (stop : Nat) (p : Parser α) : Prop :=
  ∀ c, Among ts stop c → Aims ts stop (p c)

theorem points_fail {cause : ParseError} {s : Span} (hcause : cause ≠ .nonFatal)
    (hend : cause ≠ .unexpectedEnd) (hs : Pointed ts stop s) :
    Points (α := α) ts stop (fail cause s) :=
  fun _ _ => .pointed hcause hend hs

theorem points_ended : Points (α := α) ts stop ended := by
  intro c hc
  rw [ended, Cursor.endSpan, hc.stop]
  exact Refusal.ended

theorem points_pure (a : α) : Points ts stop (pure a) := fun _ hc => hc

theorem points_get : Points ts stop (get : Parser Cursor) := fun _ hc => hc

theorem Points.bind {p : Parser α} {q : α → Parser β} (hp : Points ts stop p)
    (hq : ∀ a, Points ts stop (q a)) : Points ts stop (p >>= q) := by
  intro c hc
  have h := hp c hc
  cases hpc : p c with
  | ok a d =>
    rw [hpc] at h
    rw [bind_ok q hpc]
    exact hq a d h
  | error e d =>
    rw [hpc] at h
    rw [bind_error q hpc]
    exact h

theorem Among.skipBlanks {c : Cursor} (h : Among ts stop c) : Among ts stop c.skipBlanks :=
  ⟨(List.dropWhile_suffix _).trans h.rest, h.stop⟩

/-- The next token is one of them, and stands before those left. -/
theorem next_cases {c : Cursor} (hc : Among ts stop c) :
    (∃ e d, next c = .error e d ∧ Refusal ts stop e) ∨
      ∃ t d, next c = .ok t d ∧ t ∈ ts ∧ Among ts stop d ∧ ∀ u ∈ d.rest, [t, u].Sublist ts := by
  have hblanks := hc.skipBlanks
  simp only [next]
  cases h : c.skipBlanks.rest with
  | nil => exact .inl ⟨_, _, rfl, points_ended (α := Token) _ hblanks⟩
  | cons t rest =>
    have hrest := hblanks.rest
    rw [h] at hrest
    refine .inr ⟨t, _, rfl, hrest.subset (.head _),
      ⟨(List.suffix_cons _ _).trans hrest, hblanks.stop⟩, fun u hu => ?_⟩
    exact ((List.singleton_sublist.2 hu).cons_cons t).trans hrest.sublist

/-- What follows on a token may point at it, and up to any token left. -/
theorem points_next_bind {q : Token → Parser α} (hq : ∀ t c, t ∈ ts → Among ts stop c →
    (∀ u ∈ c.rest, [t, u].Sublist ts) → Aims ts stop (q t c)) : Points ts stop (next >>= q) := by
  intro c hc
  rcases next_cases hc with ⟨e, d, h, hrefusal⟩ | ⟨t, d, h, ht, hd, hbehind⟩
  · rw [bind_error q h]
    exact hrefusal
  · rw [bind_ok q h]
    exact hq t d ht hd hbehind

theorem points_mem_bind {q : Token → Parser α} (hq : ∀ t ∈ ts, Points ts stop (q t)) :
    Points ts stop (next >>= q) :=
  points_next_bind fun t c ht hc _ => hq t ht c hc

end Parser

namespace Formula

open TraceCalculus.Parser

variable {S : Type} {ts : List Token} {stop : Nat}

theorem points_transposes (turns : Nat) (f : Formula S) :
    Points ts stop (transposes turns f) := by
  induction turns generalizing f with
  | zero => exact points_pure f
  | succ turns ih =>
    intro c hc
    have hdot : ∀ {mark : Token} (d : Cursor), mark ∈ ts → Aims (α := Formula S) ts stop
        (.error (.on .danglingDot mark.span) d) :=
      fun _ hmark => .pointed nofun nofun (.token hmark)
    simp only [transposes]
    rcases next_cases hc with ⟨e, d, h, -⟩ | ⟨mark, d, h, hmark, hd, -⟩ <;> rw [h]
    · exact hc
    · dsimp only
      split
      case h_1 => exact ih _ d hd
      case h_2 =>
        rcases next_cases hd with ⟨e, d', h', -⟩ | ⟨letter, d', h', -, hd', -⟩ <;> rw [h']
        · exact hdot d' hmark
        · dsimp only
          split
          · exact ih _ d' hd'
          · exact hdot d' hmark
      case h_3 => exact hc

variable {inner : Parser (Formula S)}

theorem points_closed {opening : Token} (h : opening ∈ ts) (f : Formula S) :
    Points ts stop (closed opening.span f) := by
  intro c hc
  have hunclosed : ∀ d : Cursor, Aims (α := Formula S × Span) ts stop
      (.error (.on (.unclosedParenthesis true) opening.span) d) :=
    fun _ => .pointed nofun nofun (.token h)
  unfold closed
  rcases next_cases hc with ⟨e, d, h', -⟩ | ⟨closing, d, h', -, hd, -⟩ <;> rw [h']
  · exact hunclosed d
  · dsimp only
    split
    · exact hd
    · exact hunclosed d

theorem points_bracketed (hinner : Points ts stop inner) : Points ts stop (bracketed inner) := by
  rw [bracketed_eq]
  refine points_next_bind fun opening c hopening hc hbehind => ?_
  have hinside := hinner.bind (points_closed hopening)
  change Aims ts stop (opened inner opening.span c.peek? c)
  cases hpeek : c.peek? with
  | none => exact hinside c hc
  | some closing =>
    have hclosing : closing ∈ c.rest :=
      (List.dropWhile_suffix _).subset (List.mem_of_mem_head? hpeek)
    simp only [opened]
    split
    · have hempty : Points (α := Unit) ts stop
          (fail .emptyParenthesis (opening.span.through closing.span)) :=
        points_fail nofun nofun (.stretch (hbehind closing hclosing))
      exact (hempty.bind fun _ => hinside) c hc
    · exact hinside c hc

/-- Where no operator binds tightly enough the climb is over. The error is forgotten. -/
theorem points_climb {expression : Precedence → Parser (Formula S)}
    (hexpression : ∀ min, Points ts stop (expression min)) (min : Precedence) (turns : Nat)
    (lhs : Formula S) : Points ts stop (climb expression min turns lhs) := by
  induction turns generalizing lhs with
  | zero => exact points_pure lhs
  | succ turns ih =>
    intro c hc
    by_cases hstops : Stops (admitted min) c
    · rw [climb_of_stops hstops]
      exact hc
    · obtain ⟨token, d, op, hnext, hop⟩ := exists_of_not_stops hstops
      rw [climb_of_next hnext hop]
      rcases next_cases hc with ⟨e, d', h, -⟩ | ⟨t, d', h, -, hd, -⟩ <;> rw [hnext] at h <;> cases h
      exact (hexpression op.precedence.tighter).bind (fun rhs => ih _) d hd

variable [Scalar S]

theorem points_atom (hinner : Points ts stop inner) : Points ts stop (atom inner) := by
  have hbracketed := points_bracketed hinner
  refine points_get.bind fun c => ?_
  split
  · exact hbracketed.bind fun _ => points_pure _
  · refine points_mem_bind fun token htoken => ?_
    split
    · exact points_pure _
    · refine points_get.bind fun c => ?_
      split
      · exact hbracketed.bind fun _ => points_pure _
      · exact points_pure _
    · exact points_fail nofun nofun (.token htoken)
    · exact points_fail nofun nofun (.token htoken)

theorem points_operand (hinner : Points ts stop inner) : Points ts stop (operand inner) :=
  (points_atom hinner).bind fun _ => points_get.bind fun _ => points_transposes _ _

/-- That there is no sign is no complaint. -/
theorem points_signed (hinner : Points ts stop inner) (turns : Nat) :
    Points ts stop (signed inner turns) := by
  induction turns with
  | zero => exact points_ended
  | succ turns ih =>
    intro c hc
    by_cases hminus : c.facing .minus = true
    · rw [signed_of_facing _ hminus]
      exact points_mem_bind (fun _ _ => ih.bind fun _ => points_pure _) c hc
    · rw [signed_of_not_facing _ hminus]
      exact points_operand hinner c hc

theorem points_expression (depth : Nat) (min : Precedence) :
    Points ts stop (expression (S := S) depth min) := by
  induction depth generalizing min with
  | zero => exact points_ended
  | succ depth ih =>
    exact points_get.bind fun _ => (points_signed (ih .any) _).bind fun _ =>
      points_get.bind fun _ => points_climb ih _ _ _

theorem points_formula : Points ts stop (parser (S := S)) :=
  fun c => points_expression c.rest.length .any c

omit [Scalar S] in
theorem points_complete {p : Parser (Formula S)} (hp : Points ts stop p) :
    Points ts stop (complete p) := by
  refine hp.bind fun f => ?_
  intro c hc
  change Aims ts stop (finish f c.skipBlanks c.skipBlanks)
  have hblanks := hc.skipBlanks
  unfold finish Cursor.current?
  cases h : c.skipBlanks.rest with
  | nil => exact hblanks
  | cons t rest =>
    have ht : t ∈ ts := hblanks.rest.subset (by rw [h]; exact .head _)
    simp only [List.head?_cons]
    split
    · exact Refusal.pointed nofun nofun (.token ht)
    · rw [Cursor.endSpan, hblanks.stop]
      exact Refusal.pointed nofun nofun (.rest ht)

/-- The parser has a complaint about the source. -/
theorem parse_error {source : String} {e : Located ParseError}
    (h : parse (S := S) source = .error e) :
    Refusal (Token.tokenize source) (Cursor.ofSource source).stop e := by
  have hpoints := points_complete (points_formula (S := S)) (Cursor.ofSource source)
    ⟨List.suffix_rfl, rfl⟩
  unfold parse at h
  cases hresult : complete (parser (S := S)) (Cursor.ofSource source) with
  | ok f c =>
    rw [hresult] at h
    cases h
  | error e' c =>
    rw [hresult] at h hpoints
    cases h
    exact hpoints

/-! ## What has no meaning -/

omit [Scalar S] in
/-- Tokens in their order have a region that can be pointed at. -/
theorem pointed_of_spans {us : List Token} {s : Span} (h : Token.Spans us s) (hus : us.Sublist ts) :
    Pointed ts stop s := by
  obtain ⟨first, last, hfirst, hlast, rfl⟩ := h
  obtain ⟨us, rfl⟩ := List.head?_eq_some_iff.1 hfirst
  cases us with
  | nil =>
    cases hlast
    exact .token (hus.subset (.head _))
  | cons u us =>
    have hmem : last ∈ u :: us := List.mem_of_mem_getLast? (by simpa using hlast)
    exact .stretch (((List.singleton_sublist.2 hmem).cons_cons first).trans hus)

omit [Scalar S] in
theorem inside_of_mem_preorder {n f : Formula S} (h : n ∈ f.preorder) : n.Inside f := by
  induction f with
  | number | symbol =>
    obtain rfl := List.mem_singleton.1 h
    exact .whole
  | paren inner _ ih | neg inner _ ih | transpose inner _ ih =>
    obtain rfl | h := List.mem_cons.1 h
    · exact .whole
    · exact .child (.head _) (ih h)
  | binary op _ lhs rhs _ ihl ihr =>
    obtain rfl | h := List.mem_cons.1 h
    · exact .whole
    · obtain h | h := List.mem_append.1 h
      · exact .child (.head _) (ihl h)
      · exact .child (.tail _ (.head _)) (ihr h)
  | call name _ arg _ ih =>
    obtain rfl | h := List.mem_cons.1 h
    · exact .whole
    · split at h
      · exact .child (.head _) (ih h)
      · cases h

/-- What has no meaning is a formula inside the formula, or the name of one of its functions. -/
theorem toExpr_error {declared : Declarations} {f : Formula S} {e : Located MeaningError}
    (h : f.toExpr declared = .error e) :
    ∃ n : Formula S, n.Inside f ∧ ∃ s, e.spans = [s] ∧ (s = n.span ∨ s ∈ n.parts) := by
  obtain ⟨n, hn, hoffence⟩ := List.exists_of_findSome?_eq_some ((toExpr_eq_error _).1 h)
  have hinside := inside_of_mem_preorder hn
  have harg : ∀ {name : String} {nameSpan s : Span} {arg : Formula S},
      (Formula.call name nameSpan arg s).Inside f → arg.innermost.Inside f :=
    fun {_ _ _ arg} hcall => arg.innermost_inside.trans (.trans (.child (.head _) .whole) hcall)
  cases offends_iff.2 hoffence with
  | name => exact ⟨_, hinside, _, rfl, .inl rfl⟩
  | function => exact ⟨_, hinside, _, rfl, .inr (.head _)⟩
  | differential => exact ⟨_, harg hinside, _, rfl, .inl rfl⟩
  | differentialName hname => exact ⟨_, hname ▸ harg hinside, _, rfl, .inl rfl⟩

end Formula

/-- A source is refused for a complaint of the parser, or for what has no meaning. -/
theorem Expr.read_error_cases {S : Type} [Scalar S] {declared : Declarations} {source : String}
    {e : Located ReadError} (h : read (S := S) declared source = .error e) :
    (∃ e', Formula.parse (S := S) source = .error e' ∧ e = e'.mapCause .parse) ∨
      ∃ cause s, e = .on (.meaning cause) s ∧
        Parser.Pointed (Token.tokenize source) (Cursor.ofSource source).stop s := by
  unfold read at h
  cases hparse : Formula.parse (S := S) source with
  | error e' =>
    rw [hparse] at h
    cases h
    exact .inl ⟨e', rfl, rfl⟩
  | ok f =>
    rw [hparse] at h
    dsimp only at h
    cases hmeaning : f.toExpr declared with
    | ok e' =>
      rw [hmeaning] at h
      cases h
    | error e' =>
      rw [hmeaning] at h
      cases h
      obtain ⟨n, hn, s, hs, hplace⟩ := Formula.toExpr_error hmeaning
      obtain ⟨us, hus, hreads⟩ := (Formula.reads_of_parse hparse).inside hn
      have hsub : us.Sublist (Token.tokenize source) := hus.sublist.trans List.filter_sublist
      refine .inr ⟨e'.cause, s, by rw [Located.mapCause, hs]; rfl, ?_⟩
      rcases hplace with rfl | hpart
      · exact Formula.pointed_of_spans hreads.spans hsub
      · obtain ⟨pieces, hspans, hparts, hpieces⟩ := hreads.parts
        rw [← hparts] at hpart
        obtain ⟨p, hp, rfl⟩ := List.mem_map.1 hpart
        have hpiece : p.1.Sublist (pieces.flatMap (·.1)) :=
          List.sublist_flatten_of_mem (List.mem_map_of_mem hp)
        exact Formula.pointed_of_spans (hspans p hp) ((hpiece.trans hpieces).trans hsub)

/-! ## Regions of a text -/

namespace Text

/-- The offset is between two characters of the text, or at an end. -/
def IsBoundary (cs : List Char) (offset : Nat) : Prop :=
  ∃ before after, cs = before ++ after ∧ byteLength before = offset

/-- The region lies in the text, and starts and stops between characters. -/
structure InBounds (cs : List Char) (s : Span) : Prop where
  ordered : s.start ≤ s.stop
  within : s.stop ≤ byteLength cs
  starts : IsBoundary cs s.start
  stops : IsBoundary cs s.stop

/-- The region lies in the text and has something in it, unless the text ended too early: then it is
the empty region at the end. -/
structure Sits (cs : List Char) (ended : Prop) (s : Span) : Prop extends InBounds cs s where
  empty_iff : s.start = s.stop ↔ ended
  ending : ended → s = .point (byteLength cs)

theorem IsBoundary.le {cs : List Char} {n : Nat} (h : IsBoundary cs n) : n ≤ byteLength cs := by
  obtain ⟨before, after, rfl, rfl⟩ := h
  simp

theorem Spells.inBounds {cs excerpt : List Char} {s : Span} (h : Spells cs s excerpt) :
    InBounds cs s := by
  obtain ⟨before, after, hcs, hstart, hstop⟩ := h
  have hstops : IsBoundary cs s.stop := ⟨before ++ excerpt, after, hcs, hstop⟩
  refine ⟨?_, hstops.le, ⟨before, excerpt ++ after, by rw [hcs, List.append_assoc], hstart⟩, hstops⟩
  rw [← hstart, ← hstop, byteLength_append]
  exact Nat.le_add_right _ _

/-- A region of a part of a text is one of the text, further behind. -/
theorem InBounds.shift {before cs after : List Char} {s : Span} (h : InBounds cs s) :
    InBounds (before ++ cs ++ after) (s.shift (byteLength before)) := by
  have hboundary : ∀ {n}, IsBoundary cs n →
      IsBoundary (before ++ cs ++ after) (n + byteLength before) := by
    rintro n ⟨front, back, rfl, rfl⟩
    exact ⟨before ++ front, back ++ after, by simp, by rw [byteLength_append, Nat.add_comm]⟩
  exact ⟨Nat.add_le_add_right h.ordered _, (hboundary h.stops).le, hboundary h.starts,
    hboundary h.stops⟩

end Text

namespace Token

/-- A token of a source starts and stops between characters. -/
theorem isBoundary_of_mem {source : String} {t : Token} (ht : t ∈ tokenize source) :
    Text.IsBoundary source.toList t.span.start ∧ Text.IsBoundary source.toList t.span.stop := by
  obtain ⟨us, vs, hts⟩ := List.append_of_mem ht
  have hlexed := lexed_tokenize source
  obtain ⟨hstart, hstop⟩ := hlexed.span_eq us t vs hts
  have hchars := hlexed.chars_eq
  rw [hts] at hchars
  exact ⟨⟨chars us, chars (t :: vs), by rw [← hchars, chars_append], by simpa using hstart.symm⟩,
    ⟨chars (us ++ [t]), chars vs, by rw [← hchars]; simp, by simpa using hstop.symm⟩⟩

/-- The reader of a source ends where the source does. -/
theorem stop_ofSource (source : String) :
    (Cursor.ofSource source).stop = byteLength source.toList := by
  have hlexed := lexed_tokenize source
  rw [← hlexed.chars_eq]
  simp only [Cursor.ofSource]
  cases hlast : (tokenize source).getLast? with
  | none =>
    rw [List.getLast?_eq_none_iff.1 hlast]
    rfl
  | some t =>
    obtain ⟨us, hts⟩ := List.getLast?_eq_some_iff.1 hlast
    have hstop := (hlexed.span_eq us t [] hts).2
    rw [hts]
    simpa using hstop

theorem isBoundary_stop (source : String) :
    Text.IsBoundary source.toList (Cursor.ofSource source).stop :=
  ⟨source.toList, [], (List.append_nil _).symm, (stop_ofSource source).symm⟩

end Token

/-- What a reader points at lies in the source and has something in it. -/
theorem Parser.Pointed.inBounds {source : String} {s : Span}
    (h : Pointed (Token.tokenize source) (Cursor.ofSource source).stop s) :
    Text.InBounds source.toList s ∧ s.start < s.stop := by
  have horder := (Token.lexed_tokenize source).inOrder
  have hregion : ∀ {s : Span}, Text.IsBoundary source.toList s.start →
      Text.IsBoundary source.toList s.stop → s.start < s.stop →
        Text.InBounds source.toList s ∧ s.start < s.stop :=
    fun hstart hstop hlt => ⟨⟨hlt.le, hstop.le, hstart, hstop⟩, hlt⟩
  cases h with
  | token ht =>
    obtain ⟨hstart, hstop⟩ := Token.isBoundary_of_mem ht
    exact hregion hstart hstop (horder.nonempty _ ht)
  | @stretch t u hsub =>
    have ht : t ∈ Token.tokenize source := hsub.subset (.head _)
    have hu : u ∈ Token.tokenize source := hsub.subset (.tail _ (.head _))
    have hapart : t.span.stop ≤ u.span.start :=
      List.rel_of_pairwise_cons (horder.sublist hsub).apart (.head _)
    refine hregion (Token.isBoundary_of_mem ht).1 (Token.isBoundary_of_mem hu).2 ?_
    exact (horder.nonempty t ht).trans_le (hapart.trans (horder.nonempty u hu).le)
  | @rest t ht =>
    obtain ⟨hstart, hstop⟩ := Token.isBoundary_of_mem ht
    have hend : t.span.stop ≤ (Cursor.ofSource source).stop := by
      rw [Token.stop_ofSource]
      exact hstop.le
    refine hregion hstart (Token.isBoundary_stop source) ?_
    exact (horder.nonempty t ht).trans_le hend

/-- What a reader points at is not what is missing at the end. -/
theorem Parser.Pointed.sits {source : String} {s : Span} {ended : Prop}
    (h : Pointed (Token.tokenize source) (Cursor.ofSource source).stop s) (hended : ¬ ended) :
    Text.Sits source.toList ended s where
  toInBounds := h.inBounds.1
  empty_iff := iff_of_false h.inBounds.2.ne hended
  ending hend := absurd hend hended

theorem Parser.Refusal.sits {source : String} {e : Located ParseError}
    (h : Refusal (Token.tokenize source) (Cursor.ofSource source).stop e) :
    e.cause ≠ .nonFatal ∧
      ∃ s, e.spans = [s] ∧ Text.Sits source.toList (e.cause = .unexpectedEnd) s := by
  cases h with
  | pointed hcause hend hs => exact ⟨hcause, _, rfl, hs.sits hend⟩
  | ended =>
    have hend := Token.isBoundary_stop source
    refine ⟨nofun, _, rfl, ⟨Nat.le_refl _, hend.le, hend, hend⟩, iff_of_true rfl rfl, fun _ => ?_⟩
    rw [Token.stop_ofSource]

/-- A source that is refused is refused with one region that lies in it. -/
theorem Expr.read_error_sits {S : Type} [Scalar S] {declared : Declarations} {source : String}
    {e : Located ReadError} (h : read (S := S) declared source = .error e) :
    e.cause ≠ .parse .nonFatal ∧
      ∃ s, e.spans = [s] ∧ Text.Sits source.toList (e.cause = .parse .unexpectedEnd) s := by
  rcases read_error_cases h with ⟨e', hparse, rfl⟩ | ⟨cause, s, rfl, hs⟩
  · obtain ⟨hcause, s, hs, hsits⟩ := (Formula.parse_error hparse).sits
    have hended : ((e'.mapCause ReadError.parse).cause = .parse .unexpectedEnd) =
        (e'.cause = .unexpectedEnd) := ReadError.parse.injEq _ _
    exact ⟨fun h => hcause (ReadError.parse.inj h), s, hs, by rwa [hended]⟩
  · exact ⟨nofun, s, rfl, hs.sits nofun⟩

theorem Expr.read_error_spans {S : Type} [Scalar S] {declared : Declarations} {source : String}
    {e : Located ReadError} (h : read (S := S) declared source = .error e) :
    ∃ s, e.spans = [s] ∧ Text.InBounds source.toList s := by
  obtain ⟨-, s, hs, hsits⟩ := read_error_sits h
  exact ⟨s, hs, hsits.toInBounds⟩

/-- A source that the parser refuses, or that has no meaning, is refused with exactly one region that
lies in it, between characters. It is empty only where the source ended too early, and then stands at
its end. And the parser is never interrupted. -/
theorem Expr.read_error_wellFormed (S : Type) [Scalar S] (declared : Declarations)
    (source : String) :
    (∀ e, Formula.parse (S := S) source = .error e → e.cause ≠ .nonFatal ∧
      ∃ s, e.spans = [s] ∧ Text.Sits source.toList (e.cause = .unexpectedEnd) s) ∧
    ∀ e, read (S := S) declared source = .error e → e.cause ≠ .parse .nonFatal ∧
      ∃ s, e.spans = [s] ∧ Text.Sits source.toList (e.cause = .parse .unexpectedEnd) s :=
  ⟨fun _ h => (Formula.parse_error h).sits, fun _ h => read_error_sits h⟩

/-- In `Tr(é` stands a character of two bytes that no formula has, and `Tr(d((A*X)))` is a formula
without a meaning. -/
theorem Expr.read_error_wellFormed_wideSymbol :
    (∃ e, Formula.parse (S := Float) "Tr(é" = .error e ∧ e.cause ≠ .nonFatal ∧
      ∃ s, e.spans = [s] ∧ Text.Sits "Tr(é".toList (e.cause = .unexpectedEnd) s) ∧
    ∃ e, read (S := Float) {} "Tr(d((A*X)))" = .error e ∧ e.cause ≠ .parse .nonFatal ∧
      ∃ s, e.spans = [s] ∧
        Text.Sits "Tr(d((A*X)))".toList (e.cause = .parse .unexpectedEnd) s := by
  have hparse : Formula.parse (S := Float) "Tr(é" =
      .error (.on (.unexpectedToken .symbol) ⟨3, 5⟩) := by
    cbv
  have hread : read (S := Float) {} "Tr(d((A*X)))" =
      .error (.on (.meaning .invalidDifferential) ⟨6, 9⟩) := by
    cbv
  exact ⟨⟨_, hparse, (read_error_wellFormed Float {} _).1 _ hparse⟩,
    _, hread, (read_error_wellFormed Float {} _).2 _ hread⟩

end TraceCalculus
