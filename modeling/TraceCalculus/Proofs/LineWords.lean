import TraceCalculus.Proofs.Words
import TraceCalculus.Session.Command

/-! # The words of a line

A text is blank, or it starts with a word behind a gap (`Text.isGap_or_exists_word`). What a line
asks for hangs on how it starts: the first word is split off with the place where it stands
(`Fragment.splitWord?_of_word`), the words of the text go on behind it (`Text.words_of_word`), and
what is left is trimmed where it stands (`Fragment.trim_of_frames`). So the gaps of a line, its
words and the texts between them determine all that a session knows of it.
-/

set_option autoImplicit false

namespace TraceCalculus.Text

/-- Nothing but blanks. -/
def IsGap (cs : List Char) : Prop := ∀ c ∈ cs, isBlank c = true

/-- At least one character, and no blank. -/
def IsWord (cs : List Char) : Prop := cs ≠ [] ∧ ∀ c ∈ cs, isBlank c = false

/-- A word that stands before the text ends there. -/
def EndsWord (cs : List Char) : Prop := ∀ c ∈ cs.head?, isBlank c = true

variable {cs gap rest w : List Char}

theorem isGap_nil : IsGap [] := nofun

theorem IsGap.endsWord (h : IsGap gap) : EndsWord gap := fun c hc => h c (List.mem_of_mem_head? hc)

theorem head?_dropWhile (p : Char → Bool) (cs : List Char) :
    ∀ c ∈ (cs.dropWhile p).head?, p c = false := by
  intro c hc
  have h := List.head?_dropWhile_not p cs
  rw [Option.mem_def.1 hc] at h
  simpa using h

theorem forall_mem_takeWhile (p : Char → Bool) (cs : List Char) :
    ∀ c ∈ cs.takeWhile p, p c = true :=
  List.all_eq_true.1 List.all_takeWhile

/-- A text that does not start with a blank starts with a word. -/
theorem exists_word (hne : cs ≠ []) (hhead : ∀ c ∈ cs.head?, isBlank c = false) :
    ∃ w rest, cs = w ++ rest ∧ IsWord w ∧ EndsWord rest := by
  obtain ⟨c, cs, rfl⟩ := List.exists_cons_of_ne_nil hne
  have hc : isBlank c = false := hhead c rfl
  refine ⟨(c :: cs).takeWhile (!isBlank ·), (c :: cs).dropWhile (!isBlank ·),
    List.takeWhile_append_dropWhile.symm, ⟨by simp [hc], fun d hd => ?_⟩, fun d hd => ?_⟩
  · simpa using forall_mem_takeWhile (fun d => !isBlank d) (c :: cs) d hd
  · simpa using head?_dropWhile (fun d => !isBlank d) (c :: cs) d hd

/-- Every text is blank or starts with a word behind a gap. -/
theorem isGap_or_exists_word (cs : List Char) :
    IsGap cs ∨ ∃ gap w rest, cs = gap ++ w ++ rest ∧ IsGap gap ∧ IsWord w ∧ EndsWord rest := by
  have hcs : cs.takeWhile isBlank ++ cs.dropWhile isBlank = cs := List.takeWhile_append_dropWhile
  have hgap : IsGap (cs.takeWhile isBlank) := forall_mem_takeWhile isBlank cs
  by_cases hne : cs.dropWhile isBlank = []
  · rw [hne, List.append_nil] at hcs
    exact .inl (hcs ▸ hgap)
  · obtain ⟨w, rest, hword, hw, hrest⟩ := exists_word hne (head?_dropWhile isBlank cs)
    exact .inr ⟨_, w, rest, by rw [List.append_assoc, ← hword, hcs], hgap, hw, hrest⟩

theorem span_gap (hgap : IsGap gap) (hrest : ∀ c ∈ rest.head?, isBlank c = false) :
    (gap ++ rest).takeWhile isBlank = gap ∧ (gap ++ rest).dropWhile isBlank = rest :=
  Prod.mk.inj (Token.splitWhile_append hgap hrest)

theorem span_word (hw : IsWord w) (hrest : EndsWord rest) :
    (w ++ rest).takeWhile (!isBlank ·) = w ∧ (w ++ rest).dropWhile (!isBlank ·) = rest :=
  Prod.mk.inj (Token.splitWhile_append (fun c hc => by simp [hw.2 c hc])
    fun c hc => by simp [hrest c hc])

theorem IsWord.head?_append (hw : IsWord w) (rest : List Char) :
    ∀ c ∈ (w ++ rest).head?, isBlank c = false := by
  obtain ⟨d, w, rfl⟩ := List.exists_cons_of_ne_nil hw.1
  rintro c hc
  cases hc
  exact hw.2 _ (.head _)

/-! ## All words of a text -/

theorem words_gap (hgap : IsGap gap) (cs : List Char) : words (gap ++ cs) = words cs := by
  induction gap with
  | nil => rfl
  | cons c gap ih =>
    obtain ⟨hc, hgap⟩ := List.forall_mem_cons.1 hgap
    rw [← ih hgap, List.cons_append]
    simp [words, pieces, hc]

theorem pieces_word (hw : ∀ c ∈ w, isBlank c = false) :
    pieces isBlank w = [w] ∧
      ∀ c rest, isBlank c = true → pieces isBlank (w ++ c :: rest) = w :: pieces isBlank rest := by
  induction w with
  | nil => exact ⟨rfl, fun c rest hc => by simp [pieces, hc]⟩
  | cons d w ih =>
    obtain ⟨hd, hw⟩ := List.forall_mem_cons.1 hw
    refine ⟨by simp [pieces, hd, (ih hw).1], fun c rest hc => ?_⟩
    rw [List.cons_append]
    simp [pieces, hd, (ih hw).2 c rest hc]

/-- The words of a text that starts with a word go on behind it. -/
theorem words_of_word (hgap : IsGap gap) (hw : IsWord w) (hrest : EndsWord rest) :
    words (gap ++ w ++ rest) = w :: words rest := by
  rw [List.append_assoc, words_gap hgap]
  cases rest with
  | nil => simp [words, (pieces_word hw.2).1, hw.1, pieces]
  | cons c rest =>
    have hc : isBlank c = true := hrest c rfl
    simp [words, (pieces_word hw.2).2 c rest hc, hw.1, pieces, hc]

/-- A text has no words if it is blank. -/
theorem words_of_isGap (h : IsGap cs) : words cs = [] := by
  rw [← List.append_nil cs, words_gap h]
  rfl

/-! ## Trimming -/

/-- A text is `t` with a gap on each side, and `t` neither starts nor ends with a blank. A text that
is blank is all gap before it. -/
structure Frames (gap t rest cs : List Char) : Prop where
  eq : cs = gap ++ t ++ rest
  before : IsGap gap
  behind : IsGap rest
  starts : ∀ c ∈ t.head?, isBlank c = false
  stops : ∀ c ∈ t.getLast?, isBlank c = false
  empty : t = [] → rest = []

theorem trimEnd_of_gap {t : List Char} (hrest : IsGap rest)
    (hstops : ∀ c ∈ t.getLast?, isBlank c = false) : trimEnd (t ++ rest) = t := by
  have hgap : IsGap rest.reverse := fun c hc => hrest c (List.mem_reverse.1 hc)
  rw [trimEnd, List.reverse_append, (span_gap hgap fun c hc => ?_).2, List.reverse_reverse]
  exact hstops c (by rwa [List.head?_reverse] at hc)

/-- A text that starts with a word behind a gap is framed by the gap and the blanks at its end. -/
theorem exists_frames_of_word (hgap : IsGap gap) (hw : IsWord w) (rest : List Char) :
    ∃ t behind, Frames gap t behind (gap ++ w ++ rest) ∧ t.head? = w.head? := by
  have hsplit : trimEnd (w ++ rest) ++ ((w ++ rest).reverse.takeWhile isBlank).reverse
      = w ++ rest := by
    rw [trimEnd, ← List.reverse_append, List.takeWhile_append_dropWhile, List.reverse_reverse]
  have hblank : IsGap ((w ++ rest).reverse.takeWhile isBlank).reverse := fun c hc =>
    forall_mem_takeWhile _ _ c (List.mem_reverse.1 hc)
  have hstops : ∀ c ∈ (trimEnd (w ++ rest)).getLast?, isBlank c = false := by
    intro c hc
    rw [trimEnd, List.getLast?_reverse] at hc
    exact head?_dropWhile _ _ c hc
  obtain ⟨c, w, rfl⟩ := List.exists_cons_of_ne_nil hw.1
  have hhead : (trimEnd (c :: w ++ rest)).head? = some c := by
    cases h : trimEnd (c :: w ++ rest) with
    | nil =>
      -- the word has a character that is no blank, and so is not trimmed
      rw [h, List.nil_append] at hsplit
      have hc := hblank c (by rw [hsplit]; exact .head _)
      rw [hw.2 c (.head _)] at hc
      cases hc
    | cons d t =>
      rw [h] at hsplit
      exact congrArg some (List.cons.inj hsplit).1
  refine ⟨_, _, ⟨?_, hgap, hblank, fun d hd => ?_, hstops, fun h => ?_⟩, hhead⟩
  · rw [List.append_assoc, List.append_assoc, hsplit]
  · rw [hhead] at hd
    cases hd
    exact hw.2 c (.head _)
  · rw [h] at hhead
    cases hhead

/-- Every text is framed by gaps. -/
theorem exists_frames (cs : List Char) : ∃ gap t rest, Frames gap t rest cs := by
  rcases isGap_or_exists_word cs with hgap | ⟨gap, w, rest, rfl, hgap, hw, -⟩
  · exact ⟨cs, [], [], ⟨by simp, hgap, isGap_nil, nofun, nofun, fun _ => rfl⟩⟩
  · obtain ⟨t, behind, hframes, -⟩ := exists_frames_of_word hgap hw rest
    exact ⟨gap, t, behind, hframes⟩

namespace Fragment

variable {f : Fragment} {t : List Char}

theorem splitWord?_of_isGap (h : IsGap f.chars) : f.splitWord? = none := by
  have hnil : f.chars.dropWhile Text.isBlank = [] := by
    rw [← List.append_nil f.chars]
    exact (span_gap h fun _ hc => by cases hc).2
  simp [splitWord?, trimStart, hnil]

/-- The first word is split off with its place. -/
theorem splitWord?_of_word (h : f.chars = gap ++ w ++ rest) (hgap : IsGap gap) (hw : IsWord w)
    (hrest : EndsWord rest) :
    f.splitWord? = some (⟨w, f.start + byteLength gap⟩,
      ⟨rest, f.start + byteLength gap + byteLength w⟩) := by
  have hstart : f.trimStart = ⟨w ++ rest, f.start + byteLength gap⟩ := by
    have hspan := span_gap hgap (hw.head?_append rest)
    rw [trimStart, h, List.append_assoc, hspan.1, hspan.2]
  have hne : (w ++ rest).isEmpty = false := by simp [hw.1]
  have hspan := span_word hw hrest
  simp only [splitWord?, hstart, hne, hspan.1, hspan.2]
  rfl

theorem trim_of_frames (h : Frames gap t rest f.chars) :
    f.trim = ⟨t, f.start + byteLength gap⟩ := by
  have hhead : ∀ c ∈ (t ++ rest).head?, Text.isBlank c = false := by
    intro c hc
    cases t with
    | nil =>
      rw [h.empty rfl] at hc
      cases hc
    | cons d t => exact h.starts c hc
  have hspan := span_gap h.before hhead
  rw [trim, trimStart, h.eq, List.append_assoc, hspan.1, hspan.2]
  exact congrArg (Fragment.mk · _) (trimEnd_of_gap h.behind h.stops)

theorem isBlank_iff : f.isBlank = true ↔ IsGap f.chars := List.all_eq_true

end Fragment

end TraceCalculus.Text
