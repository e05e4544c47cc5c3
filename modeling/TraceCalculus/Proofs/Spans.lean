import TraceCalculus.Proofs.Excerpts
import TraceCalculus.Proofs.Parsing

/-! # The regions of a formula

Every formula inside a formula stands where its region says: the region starts and stops with a
token, the regions inside it follow each other from left to right, and the excerpt of the source that
it is reads as the same formula (`Formula.placed_of_parse`).

Whatever is inside a formula reads from tokens of its own (`Reads.node`), of which the first and the
last give its region (`Reads.spans`). The excerpt between them has the same tokens, at places that
count from its own start. So it derives from the grammar with the same tree; and the tree and the
tokens leave no choice of the places (`Reads.place`).
-/

set_option autoImplicit false

namespace TraceCalculus

open Text (byteLength)

/-- The characters of a region of a text, if it starts and stops between characters. -/
def Text.Spells (cs : List Char) (s : Span) (excerpt : List Char) : Prop :=
  ∃ before after, cs = before ++ excerpt ++ after ∧ byteLength before = s.start ∧
    byteLength (before ++ excerpt) = s.stop

theorem Text.prefix_unique {cs ds rest rest' : List Char} (h : cs ++ rest = ds ++ rest')
    (hlength : byteLength cs = byteLength ds) : cs = ds ∧ rest = rest' := by
  induction cs generalizing ds with
  | nil =>
    cases ds with
    | nil => exact ⟨rfl, h⟩
    | cons d ds =>
      have hpos := d.utf8Size_pos
      simp at hlength
      omega
  | cons c cs ih =>
    cases ds with
    | nil =>
      have hpos := c.utf8Size_pos
      simp at hlength
      omega
    | cons d ds =>
      simp only [List.cons_append, List.cons.injEq] at h
      obtain ⟨rfl, h⟩ := h
      obtain ⟨rfl, rfl⟩ := ih h (by simpa using hlength)
      exact ⟨rfl, rfl⟩

/-- A region has its characters only once. -/
theorem Text.Spells.unique {cs excerpt excerpt' : List Char} {s : Span} (h : Spells cs s excerpt)
    (h' : Spells cs s excerpt') : excerpt = excerpt' := by
  obtain ⟨before, after, rfl, hstart, hstop⟩ := h
  obtain ⟨before', after', hcs, hstart', hstop'⟩ := h'
  have hwhole := (Text.prefix_unique hcs (hstop.trans hstop'.symm)).1
  exact (Text.prefix_unique hwhole (hstart.trans hstart'.symm)).2

@[simp] theorem Span.shift_through (offset : Nat) (s s' : Span) :
    (s.through s').shift offset = (s.shift offset).through (s'.shift offset) := rfl

/-! ## Regions of tokens -/

namespace Token

/-- The region of the tokens, of which there is at least one. -/
def Spans (ts : List Token) (s : Span) : Prop :=
  ∃ first last, ts.head? = some first ∧ ts.getLast? = some last ∧ s = first.span.through last.span

theorem spans_singleton (t : Token) : Spans [t] t.span := ⟨t, t, rfl, rfl, rfl⟩

theorem Spans.append {us vs : List Token} {s s' : Span} (h : Spans us s) (h' : Spans vs s')
    (ts : List Token) : Spans (us ++ ts ++ vs) (s.through s') := by
  obtain ⟨first, _, hfirst, -, rfl⟩ := h
  obtain ⟨_, last, -, hlast, rfl⟩ := h'
  exact ⟨first, last, by simp [hfirst], by simp [List.getLast?_append, hlast], rfl⟩

theorem Spans.bounds {ts : List Token} {s : Span} (h : Spans ts s) (hts : InOrder ts) :
    ∀ t ∈ ts, s.start ≤ t.span.start ∧ t.span.stop ≤ s.stop := by
  obtain ⟨first, last, hfirst, hlast, rfl⟩ := h
  intro t ht
  have hpos := hts.nonempty t ht
  constructor
  · obtain ⟨rest, rfl⟩ := List.head?_eq_some_iff.1 hfirst
    rcases List.mem_cons.1 ht with rfl | ht
    · exact Nat.le_refl _
    · have hbefore := List.rel_of_pairwise_cons hts.apart ht
      have hfirstPos := hts.nonempty first (.head _)
      simp only [Span.through]
      omega
  · obtain ⟨rest, rfl⟩ := List.getLast?_eq_some_iff.1 hlast
    rcases List.mem_append.1 ht with ht | ht
    · have hbefore := (List.pairwise_append.1 hts.apart).2.2 t ht last (by simp)
      have hlastPos := hts.nonempty last (by simp)
      simp only [Span.through]
      omega
    · obtain rfl := List.mem_singleton.1 ht
      exact Nat.le_refl _

theorem Spans.ends {ts : List Token} {s : Span} (h : Spans ts s) :
    (∃ t ∈ ts, t.span.start = s.start) ∧ ∃ t ∈ ts, t.span.stop = s.stop := by
  obtain ⟨first, last, hfirst, hlast, rfl⟩ := h
  exact ⟨⟨first, List.mem_of_mem_head? hfirst, rfl⟩, last, List.mem_of_mem_getLast? hlast, rfl⟩

theorem Spans.nonempty {ts : List Token} {s : Span} (h : Spans ts s) (hts : InOrder ts) :
    s.start < s.stop := by
  obtain ⟨t, ht, hstart⟩ := h.ends.1
  have hpos := hts.nonempty t ht
  have hstop := (h.bounds hts t ht).2
  omega

/-- White space at the ends can be left out. -/
theorem exists_trimmed {ts : List Token} {s : Span} (h : Spans (solid ts) s) :
    ∃ before ts' after, ts = before ++ ts' ++ after ∧ solid ts' = solid ts ∧ Spans ts' s := by
  obtain ⟨first, last, hfirst, hlast, rfl⟩ := h
  obtain ⟨rest, hrest⟩ := List.head?_eq_some_iff.1 hfirst
  obtain ⟨init, hinit⟩ := List.getLast?_eq_some_iff.1 hlast
  obtain ⟨xs, ys, rfl, hxs, hys⟩ := List.filter_eq_append_iff.1 hinit
  obtain ⟨zs, after, rfl, hzs, hlast, -⟩ := List.filter_eq_cons_iff.1 hys
  have hfront : solid (xs ++ (zs ++ [last])) = first :: rest := by
    have hblank : solid (zs ++ [last]) = [last] := by
      simpa [solid, hlast] using hzs
    calc solid (xs ++ (zs ++ [last])) = solid xs ++ solid (zs ++ [last]) := List.filter_append ..
      _ = init ++ [last] := by rw [hblank, solid, hxs]
      _ = first :: rest := by rw [← hinit, hrest]
  obtain ⟨before, behind, hsplit, -, hfirst, hbehind⟩ := List.filter_eq_cons_iff.1 hfront
  refine ⟨before, first :: behind, after, ?_, ?_, first, last, rfl, ?_, rfl⟩
  · calc xs ++ (zs ++ last :: after) = xs ++ (zs ++ [last]) ++ after := by simp
      _ = before ++ first :: behind ++ after := by rw [hsplit]
  · rw [hrest, ← hbehind]
    exact List.filter_cons_of_pos hfirst
  · have hend := congrArg List.getLast? hsplit
    simpa [List.getLast?_append] using hend.symm

/-- Tokens of a source, with the white space between them, are the tokens of the excerpt that they
give the region of. -/
theorem Spans.spells {source : String} {us : List Token} {s : Span} (h : Spans us s)
    (hus : us <:+: solid (tokenize source)) :
    ∃ excerpt, Text.Spells source.toList s excerpt ∧
      us = (solid (tokenize (String.ofList excerpt))).map (shift s.start) := by
  obtain ⟨front, back, hus⟩ := hus
  obtain ⟨rest, ending, hsource, hrest, -⟩ := List.filter_eq_append_iff.1 hus.symm
  obtain ⟨beginning, middle, rfl, -, rfl⟩ := List.filter_eq_append_iff.1 hrest
  obtain ⟨before, ts, after, rfl, hsolid, hts⟩ := exists_trimmed h
  have htokens : tokenize source = (beginning ++ before) ++ ts ++ (after ++ ending) := by
    rw [hsource]
    simp
  have hlexed := lexed_tokenize source
  obtain ⟨first, last, hfirst, hlast, rfl⟩ := hts
  have hstart : first.span.start = byteLength (chars (beginning ++ before)) := by
    obtain ⟨more, rfl⟩ := List.head?_eq_some_iff.1 hfirst
    have hfront := hlexed.span_eq (beginning ++ before) first (more ++ (after ++ ending))
      (by rw [htokens]; simp)
    simpa using hfront.1
  have hstop : last.span.stop = byteLength (chars (beginning ++ before) ++ chars ts) := by
    obtain ⟨init, rfl⟩ := List.getLast?_eq_some_iff.1 hlast
    have hback := hlexed.span_eq (beginning ++ before ++ init) last (after ++ ending)
      (by rw [htokens]; simp)
    simpa using hback.2
  refine ⟨chars ts, ⟨chars (beginning ++ before), chars (after ++ ending), ?_, hstart.symm,
    hstop.symm⟩, ?_⟩
  · rw [← hlexed.chars_eq, htokens, chars_append, chars_append]
  · have hshift : ts = (tokenize (String.ofList (chars ts))).map (shift first.span.start) := by
      rw [hstart]
      exact tokenize_excerpt htokens
    rw [← solid_shift]
    exact hsolid.symm.trans (congrArg solid hshift)

end Token

namespace Formula

variable {S : Type}

/-! ## Inside a formula -/

deriving instance DecidableEq for Formula

/-- The formulas directly inside the formula, from left to right. -/
def children : Formula S → List (Formula S)
  | .number _ _ | .symbol _ _ => []
  | .paren f _ | .neg f _ | .transpose f _ | .call _ _ f _ => [f]
  | .binary _ _ lhs rhs _ => [lhs, rhs]

/-- The formula is the given one or somewhere inside it. -/
inductive Inside (n : Formula S) : Formula S → Prop where
  | whole : Inside n n
  | child {f g : Formula S} : g ∈ f.children → Inside n g → Inside n f

theorem Inside.trans {m n f : Formula S} (h : m.Inside n) (h' : n.Inside f) : m.Inside f := by
  induction h' with
  | whole => exact h
  | child hg _ ih => exact .child hg ih

theorem innermost_inside (f : Formula S) : f.innermost.Inside f := by
  induction f with
  | paren inner s ih => exact .child (.head _) ih
  | _ => exact .whole

/-- The regions directly inside the formula, from left to right: those of its operands, of its
operator and of the name of its function. -/
def parts : Formula S → List Span
  | .number _ _ | .symbol _ _ => []
  | .paren f _ | .neg f _ | .transpose f _ => [f.span]
  | .binary _ opSpan lhs rhs _ => [lhs.span, opSpan, rhs.span]
  | .call _ nameSpan arg _ => [nameSpan, arg.span]

/-- The formula in a text that has `offset` more bytes before it. -/
def shift (offset : Nat) : Formula S → Formula S
  | .number value s => .number value (s.shift offset)
  | .symbol name s => .symbol name (s.shift offset)
  | .paren inner s => .paren (inner.shift offset) (s.shift offset)
  | .neg operand s => .neg (operand.shift offset) (s.shift offset)
  | .transpose operand s => .transpose (operand.shift offset) (s.shift offset)
  | .binary op opSpan lhs rhs s =>
    .binary op (opSpan.shift offset) (lhs.shift offset) (rhs.shift offset) (s.shift offset)
  | .call name nameSpan arg s =>
    .call name (nameSpan.shift offset) (arg.shift offset) (s.shift offset)

@[simp] theorem span_shift (offset : Nat) (f : Formula S) :
    (f.shift offset).span = f.span.shift offset := by
  cases f <;> rfl

@[simp] theorem tree_shift (offset : Nat) (f : Formula S) : (f.shift offset).tree = f.tree := by
  induction f <;> simp_all [shift, tree]

variable [Scalar S]

/-- Tokens read the same wherever they stand. -/
theorem Reads.shift {l : Level} {ts : List Token} {f : Formula S} (h : Reads l ts f)
    (offset : Nat) : Reads l (ts.map (Token.shift offset)) (f.shift offset) := by
  induction h with
  | ofProduct _ ih => exact ih.ofProduct
  | ofSigned _ ih => exact ih.ofSigned
  | ofOperand _ ih => exact ih.ofOperand
  | ofAtom _ ih => exact ih.ofAtom
  | term sign hop _ _ iha ihb =>
    simpa [Formula.shift] using iha.term (sign.shift offset) hop ihb
  | factor sign hop _ _ iha ihb =>
    simpa [Formula.shift] using iha.factor (sign.shift offset) hop ihb
  | neg sign hkind _ ih =>
    simpa [Formula.shift] using ih.neg (sign.shift offset) hkind
  | quote mark hkind _ ih =>
    simpa [Formula.shift] using ih.quote (mark.shift offset) hkind
  | dot mark letter hkind hname _ ih =>
    simpa [Formula.shift] using ih.dot (mark.shift offset) (letter.shift offset) hkind hname
  | number numeral hkind => exact .number (numeral.shift offset) hkind
  | symbol name hkind => exact .symbol (name.shift offset) hkind
  | call name opening closing hname hopening hclosing _ ih =>
    simpa [Formula.shift] using ih.call (name.shift offset) (opening.shift offset)
      (closing.shift offset) hname hopening hclosing
  | paren opening closing hopening hclosing _ ih =>
    simpa [Formula.shift] using ih.paren (opening.shift offset) (closing.shift offset) hopening
      hclosing

theorem Reads.toSum {l : Level} {ts : List Token} {f : Formula S} (h : Reads l ts f) :
    Reads .sum ts f := by
  cases l with
  | sum => exact h
  | product => exact h.ofProduct
  | signed => exact h.ofSigned.ofProduct
  | operand => exact h.ofOperand.ofSigned.ofProduct
  | atom => exact h.ofAtom.ofOperand.ofSigned.ofProduct

/-- The first and the last token give the region. -/
theorem Reads.spans {l : Level} {ts : List Token} {f : Formula S} (h : Reads l ts f) :
    Token.Spans ts f.span := by
  induction h with
  | ofProduct _ ih | ofSigned _ ih | ofOperand _ ih | ofAtom _ ih => exact ih
  | term sign _ _ _ iha ihb | factor sign _ _ _ iha ihb =>
    rw [List.append_cons]
    exact iha.append ihb [sign]
  | neg sign _ _ ih => exact (Token.spans_singleton sign).append ih []
  | quote mark _ _ ih => simpa [span] using ih.append (Token.spans_singleton mark) []
  | dot mark letter _ _ _ ih => simpa [span] using ih.append (Token.spans_singleton letter) [mark]
  | number t _ | symbol t _ => exact Token.spans_singleton t
  | @call ts _ name opening closing _ _ _ _ _ =>
    exact (Token.spans_singleton name).append (Token.spans_singleton closing) (opening :: ts)
  | @paren ts _ opening closing _ _ _ _ =>
    exact (Token.spans_singleton opening).append (Token.spans_singleton closing) ts

/-- What is directly inside the formula reads from tokens of its own. -/
theorem Reads.child {l : Level} {ts : List Token} {f g : Formula S} (h : Reads l ts f)
    (hg : g ∈ f.children) : ∃ us, us <:+: ts ∧ Reads .sum us g := by
  induction h with
  | ofProduct _ ih | ofSigned _ ih | ofOperand _ ih | ofAtom _ ih => exact ih hg
  | term _ _ ha hb | factor _ _ ha hb =>
    rcases List.mem_pair.1 hg with rfl | rfl
    · exact ⟨_, (List.prefix_append _ _).isInfix, ha.toSum⟩
    · exact ⟨_, (List.suffix_append_of_suffix (List.suffix_cons _ _)).isInfix, hb.toSum⟩
  | neg _ _ hf =>
    obtain rfl := List.mem_singleton.1 hg
    exact ⟨_, (List.suffix_cons _ _).isInfix, hf.toSum⟩
  | quote _ _ hf | dot _ _ _ _ hf =>
    obtain rfl := List.mem_singleton.1 hg
    exact ⟨_, (List.prefix_append _ _).isInfix, hf.toSum⟩
  | number | symbol => cases hg
  | call name opening closing _ _ _ hf =>
    obtain rfl := List.mem_singleton.1 hg
    exact ⟨_, ⟨[name, opening], [closing], by simp⟩, hf⟩
  | paren opening closing _ _ hf =>
    obtain rfl := List.mem_singleton.1 hg
    exact ⟨_, ⟨[opening], [closing], by simp⟩, hf⟩

/-- Whatever is inside the formula reads from tokens of its own. -/
theorem Reads.inside {l : Level} {ts : List Token} {f n : Formula S} (h : Reads l ts f)
    (hn : n.Inside f) : ∃ us, us <:+: ts ∧ Reads .sum us n := by
  induction hn generalizing l ts with
  | whole => exact ⟨ts, List.infix_rfl, h.toSum⟩
  | child hg _ ih =>
    obtain ⟨us, hus, hreads⟩ := h.child hg
    obtain ⟨vs, hvs, hn⟩ := ih hreads
    exact ⟨vs, hvs.trans hus, hn⟩

/-- The regions inside the formula are those of some of its tokens, in their order. -/
theorem Reads.parts {l : Level} {ts : List Token} {f : Formula S} (h : Reads l ts f) :
    ∃ pieces : List (List Token × Span), (∀ p ∈ pieces, Token.Spans p.1 p.2) ∧
      pieces.map (·.2) = f.parts ∧ (pieces.flatMap (·.1)).Sublist ts := by
  induction h with
  | ofProduct _ ih | ofSigned _ ih | ofOperand _ ih | ofAtom _ ih => exact ih
  | @term us vs a b _ sign _ ha hb | @factor us vs a b _ sign _ ha hb =>
    refine ⟨[(us, a.span), ([sign], sign.span), (vs, b.span)], ?_, rfl, by simp⟩
    simp [ha.spans, hb.spans, Token.spans_singleton]
  | @neg ts f _ _ hf | @quote ts f _ _ hf | @dot ts f _ _ _ _ hf
  | @paren ts f _ _ _ _ hf =>
    exact ⟨[(ts, f.span)], by simp [hf.spans], rfl, by simp⟩
  | number | symbol => exact ⟨[], by simp, rfl, by simp⟩
  | @call ts f name _ _ _ _ _ hf =>
    refine ⟨[([name], name.span), (ts, f.span)], ?_, rfl, by simp⟩
    simp [hf.spans, Token.spans_singleton]

/-! ## Trees in place -/

/-- The tree with the places of the tokens from the first one on, and the tokens left. -/
def Tree.place : Tree S → List Token → Option (Formula S × List Token)
  | .number value, t :: ts => some (.number value t.span, ts)
  | .symbol name, t :: ts => some (.symbol name t.span, ts)
  | .paren inner, opening :: ts =>
    match inner.place ts with
    | some (f, closing :: ts) => some (.paren f (opening.span.through closing.span), ts)
    | _ => none
  | .neg operand, sign :: ts =>
    match operand.place ts with
    | some (f, ts) => some (.neg f (sign.span.through f.span), ts)
    | none => none
  | .transpose operand, ts =>
    match operand.place ts with
    | some (f, mark :: ts) =>
      if mark.kind = .quote then some (.transpose f (f.span.through mark.span), ts)
      else
        match ts with
        | letter :: ts => some (.transpose f (f.span.through letter.span), ts)
        | [] => none
    | _ => none
  | .binary op lhs rhs, ts =>
    match lhs.place ts with
    | some (a, sign :: ts) =>
      match rhs.place ts with
      | some (b, ts) => some (.binary op sign.span a b (a.span.through b.span), ts)
      | none => none
    | _ => none
  | .call name arg, t :: _ :: ts =>
    match arg.place ts with
    | some (f, closing :: ts) => some (.call name t.span f (t.span.through closing.span), ts)
    | _ => none
  | _, _ => none

/-- The tree and the tokens leave no choice of the places. -/
theorem Reads.place {l : Level} {ts : List Token} {f : Formula S} (h : Reads l ts f)
    (rest : List Token) : f.tree.place (ts ++ rest) = some (f, rest) := by
  induction h generalizing rest with
  | ofProduct _ ih | ofSigned _ ih | ofOperand _ ih | ofAtom _ ih => exact ih rest
  | _ => simp_all [tree, Tree.place]

/-- Formulas that read from the same tokens and have the same tree are the same. -/
theorem Reads.unique {l l' : Level} {ts : List Token} {f g : Formula S} (hf : Reads l ts f)
    (hg : Reads l' ts g) (htree : f.tree = g.tree) : f = g := by
  have hplace := hf.place []
  rw [htree, hg.place []] at hplace
  cases hplace
  rfl

/-! ## The whole source -/

/-- The formula stands in the source where its region says. -/
structure Placed (source : String) (n : Formula S) : Prop where
  nonempty : n.span.start < n.span.stop
  within : n.span.stop ≤ byteLength source.toList
  starts : ∃ t ∈ Token.tokenize source, t.span.start = n.span.start
  stops : ∃ t ∈ Token.tokenize source, t.span.stop = n.span.stop
  /-- The regions directly inside lie inside, and none starts before the one in front of it stops. -/
  parts_within : ∀ s ∈ n.parts, n.span.start ≤ s.start ∧ s.start < s.stop ∧ s.stop ≤ n.span.stop
  parts_apart : n.parts.Pairwise fun s t => s.stop ≤ t.start
  /-- The excerpt reads as the formula, at places that count from the start of the excerpt. -/
  spells : ∃ excerpt, Text.Spells source.toList n.span excerpt
  excerpt : ∀ excerpt, Text.Spells source.toList n.span excerpt →
    ∃ m : Formula S, parse (String.ofList excerpt) = .ok m ∧ m.shift n.span.start = n

theorem Reads.parts_placed {l : Level} {ts : List Token} {f : Formula S} (h : Reads l ts f)
    (hts : Token.InOrder ts) :
    (∀ s ∈ f.parts, f.span.start ≤ s.start ∧ s.start < s.stop ∧ s.stop ≤ f.span.stop) ∧
      f.parts.Pairwise fun s t => s.stop ≤ t.start := by
  obtain ⟨pieces, hspans, hparts, hsub⟩ := h.parts
  have hall := hts.sublist hsub
  rw [← hparts]
  constructor
  · rintro s hs
    obtain ⟨p, hp, rfl⟩ := List.mem_map.1 hs
    have hpiece : p.1.Sublist (pieces.flatMap (·.1)) :=
      List.sublist_flatten_of_mem (List.mem_map_of_mem hp)
    obtain ⟨⟨first, hfirst, hstart⟩, last, hlast, hstop⟩ := (hspans p hp).ends
    have hin := hpiece.trans hsub
    refine ⟨?_, (hspans p hp).nonempty (hall.sublist hpiece), ?_⟩
    · rw [← hstart]
      exact (h.spans.bounds hts first (hin.subset hfirst)).1
    · rw [← hstop]
      exact (h.spans.bounds hts last (hin.subset hlast)).2
  · rw [List.pairwise_map]
    refine (List.pairwise_flatMap.1 hall.apart).2.imp_of_mem fun {p q} hp hq hapart => ?_
    obtain ⟨last, hlast, hstop⟩ := (hspans p hp).ends.2
    obtain ⟨first, hfirst, hstart⟩ := (hspans q hq).ends.1
    rw [← hstop, ← hstart]
    exact hapart last hlast first hfirst

/-- Every formula inside a formula stands in the source where its region says. -/
theorem placed_of_parse {source : String} {f n : Formula S} (h : parse source = .ok f)
    (hn : n.Inside f) : Placed source n := by
  obtain ⟨us, hus, hreads⟩ := (reads_of_parse h).inside hn
  have hsub : us.Sublist (Token.tokenize source) := hus.sublist.trans List.filter_sublist
  have hlexed := Token.lexed_tokenize source
  have horder := hlexed.inOrder.sublist hsub
  obtain ⟨hwithin, hapart⟩ := hreads.parts_placed horder
  obtain ⟨⟨first, hfirst, hstart⟩, last, hlast, hstop⟩ := hreads.spans.ends
  obtain ⟨excerpt, hspells, htokens⟩ := hreads.spans.spells hus
  refine ⟨hreads.spans.nonempty horder, ?_, ⟨first, hsub.subset hfirst, hstart⟩,
    ⟨last, hsub.subset hlast, hstop⟩, hwithin, hapart, ⟨excerpt, hspells⟩, fun excerpt' h' => ?_⟩
  · obtain ⟨before, after, hsource, -, hlength⟩ := hspells
    rw [hsource, Text.byteLength_append, hlength]
    exact Nat.le_add_right _ _
  · obtain rfl := hspells.unique h'
    have hderives : Derives .sum (Word.ofSource (String.ofList excerpt)) n.tree := by
      have hwords := hreads.derives
      rwa [htokens, List.map_map] at hwords
    obtain ⟨m, hm, htree⟩ := parse_of_derives hderives
    refine ⟨m, hm, ?_⟩
    have hshift := (reads_of_parse hm).shift n.span.start
    rw [← htokens] at hshift
    exact hshift.unique hreads (by rw [tree_shift, htree])

theorem placed_of_parse_bracketInCall :
    ∃ f : Formula Int, parse "d( (A) )' * -2" = .ok f ∧
      (Formula.paren (.symbol "A" ⟨4, 5⟩) ⟨3, 6⟩).Inside f ∧
      Placed "d( (A) )' * -2" (Formula.paren (.symbol "A" ⟨4, 5⟩) ⟨3, 6⟩ : Formula Int) := by
  have hsome : (parse "d( (A) )' * -2").toOption = some (.binary .times ⟨10, 11⟩
      (.transpose (.call "d" ⟨0, 1⟩ (.paren (.symbol "A" ⟨4, 5⟩) ⟨3, 6⟩) ⟨0, 8⟩) ⟨0, 9⟩)
      (.neg (.number (2 : Int) ⟨13, 14⟩) ⟨12, 14⟩) ⟨0, 14⟩) := by
    decide +kernel
  cases hparse : parse (S := Int) "d( (A) )' * -2" with
  | error e => simp [hparse, Except.toOption] at hsome
  | ok f =>
    rw [hparse] at hsome
    obtain rfl := Option.some.inj hsome
    refine ⟨_, rfl, ?inside, placed_of_parse hparse ?inside⟩
    exact .child (.head _) (.child (.head _) (.child (.head _) .whole))

end Formula

end TraceCalculus
