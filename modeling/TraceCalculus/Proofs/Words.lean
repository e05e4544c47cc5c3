import Mathlib.Data.List.Chain
import TraceCalculus.Formula.Grammar
import TraceCalculus.Proofs.NumberText

/-! # Words as they are written

Words that are written one after the other, without white space, are cut out of the text again
(`Word.Legible.ofSource_spell`), if each is a token by itself (`Word.Proper`) and none runs into the
next one (`Word.Apart`). A name or a numeral goes on as long as it can, so it runs into another of
these and into a point, and into nothing else.
-/

set_option autoImplicit false

namespace TraceCalculus

open Decimal (IsNumeral)

/-- The characters of a name. -/
def IsName (cs : List Char) : Prop :=
  ∃ c rest, cs = c :: rest ∧ Token.isNameStart c = true ∧ ∀ d ∈ rest, Token.isNameRest d = true

namespace Word

/-- A word that is a token by itself. -/
def Proper (w : Word) : Prop :=
  match w.kind with
  | .name => IsName w.lexeme.toList
  | .number => IsNumeral w.lexeme.toList
  | kind => ∃ c, w.lexeme.toList = [c] ∧ Token.punctuation? c = some kind

/-- The word does not run into the next one. -/
def Apart (w next : Word) : Prop :=
  w.kind = .name ∨ w.kind = .number →
    next.kind ≠ .name ∧ next.kind ≠ .number ∧ next.kind ≠ .dot

/-- The characters of words that are written one after the other. -/
def spell (ws : List Word) : List Char := ws.flatMap fun w => w.lexeme.toList

@[simp] theorem spell_nil : spell [] = [] := rfl

@[simp] theorem spell_cons (w : Word) (ws : List Word) :
    spell (w :: ws) = w.lexeme.toList ++ spell ws := rfl

@[simp] theorem spell_append (us vs : List Word) : spell (us ++ vs) = spell us ++ spell vs :=
  List.flatMap_append

end Word

namespace Token

/-- A text that a token of the kind ends before. -/
def Stops (kind : Kind) (rest : List Char) : Prop :=
  match kind with
  | .name => ∀ c ∈ rest.head?, isNameRest c = false
  | .number => ∀ c ∈ rest.head?, c.isDigit = false ∧ c ≠ '.'
  | _ => True

theorem splitWhile_append {p : Char → Bool} {cs rest : List Char} (hcs : ∀ c ∈ cs, p c = true)
    (hrest : ∀ c ∈ rest.head?, p c = false) : splitWhile p (cs ++ rest) = (cs, rest) := by
  unfold splitWhile
  rw [List.takeWhile_append_of_pos hcs, List.dropWhile_append_of_pos hcs]
  cases rest with
  | nil => simp
  | cons c rest =>
    have hc : p c = false := hrest c rfl
    simp [hc]

theorem splitNumber_append {cs rest : List Char} (hcs : IsNumeral cs)
    (hrest : ∀ c ∈ rest.head?, c.isDigit = false ∧ c ≠ '.') :
    splitNumber (cs ++ rest) = (cs, rest) := by
  have hdigit : ∀ c ∈ rest.head?, c.isDigit = false := fun c hc => (hrest c hc).1
  cases hcs with
  | whole _ hds =>
    unfold splitNumber
    rw [splitWhile_append hds hdigit]
    simp only
    split
    · next d more => exact absurd rfl (hrest '.' rfl).2
    · rfl
  | @point ds fs _ hds hne hfs =>
    have hpoint : ∀ c ∈ ('.' :: (fs ++ rest)).head?, c.isDigit = false := by
      intro c hc
      cases hc
      rfl
    unfold splitNumber
    rw [List.append_assoc, List.cons_append, splitWhile_append hds hpoint]
    obtain ⟨d, fs, rfl⟩ := List.exists_cons_of_ne_nil hne
    have hd : d.isDigit = true := hfs d (.head _)
    have hfraction := splitWhile_append hfs hdigit
    rw [List.cons_append] at hfraction ⊢
    simp only [hd, if_true, hfraction]

theorem not_separator {c : Char} (h : isNameStart c = true ∨ c.isDigit = true) :
    isSeparator c = false := by
  rw [← Bool.not_eq_true]
  intro hc
  simp only [isSeparator, Bool.or_eq_true, beq_iff_eq] at hc
  rcases hc with ((rfl | rfl) | rfl) | rfl <;> rcases h with h | h <;> cases h

theorem not_nameStart_of_isDigit {c : Char} (h : c.isDigit = true) : isNameStart c = false := by
  rw [← Bool.not_eq_true]
  intro hc
  simp only [isNameStart, Bool.or_eq_true, beq_iff_eq] at hc
  rcases hc with hc | rfl
  · simp only [Char.isDigit, Char.isAlpha, Char.isUpper, Char.isLower, Bool.or_eq_true,
      Bool.and_eq_true, decide_eq_true_eq, UInt32.le_iff_toNat_le] at h hc
    have hle : c.val.toNat ≤ 57 := h.2
    rcases hc with hc | hc
    · have hge : 65 ≤ c.val.toNat := hc.1
      omega
    · have hge : 97 ≤ c.val.toNat := hc.1
      omega
  · cases h

/-- A word is the first token of a text in which it stops. -/
theorem split_of_proper {w : Word} {c : Char} {cs rest : List Char} (hw : w.Proper)
    (hchars : w.lexeme.toList = c :: cs) (hstop : Stops w.kind rest) :
    split c (cs ++ rest) = (w.kind, c :: cs, rest) := by
  have hpunctuation : ∀ {kind}, w.kind = kind →
      (∃ d, w.lexeme.toList = [d] ∧ punctuation? d = some kind) →
        split c (cs ++ rest) = (kind, c :: cs, rest) := by
    rintro kind - ⟨d, hd, hkind⟩
    rw [hchars, List.cons.injEq] at hd
    obtain ⟨rfl, rfl⟩ := hd
    unfold punctuation? at hkind
    split at hkind <;> cases hkind <;> rfl
  cases hk : w.kind <;> simp only [Word.Proper, hk] at hw <;> rw [hk] at hstop
  case name =>
    obtain ⟨d, ds, hd, hstart, hrest⟩ := hw
    rw [hchars, List.cons.injEq] at hd
    obtain ⟨rfl, rfl⟩ := hd
    have hall : ∀ d ∈ c :: cs, isNameRest d = true := by
      intro d hd
      rcases List.mem_cons.1 hd with rfl | hd
      · simp [isNameRest, hstart]
      · exact hrest d hd
    have hword := splitWhile_append hall hstop
    rw [List.cons_append] at hword
    simp only [split, not_separator (.inl hstart), hstart, hword, if_true]
    rfl
  case number =>
    rw [hchars] at hw
    have hdigit : c.isDigit = true := hw.isDigit_head
    have hword := splitNumber_append hw hstop
    rw [List.cons_append] at hword
    simp only [split, not_separator (.inr hdigit), not_nameStart_of_isDigit hdigit, hdigit, hword,
      if_true]
    rfl
  all_goals exact hpunctuation hk hw

end Token

namespace Word

theorem Proper.chars_ne_nil {w : Word} (h : w.Proper) : ∃ c cs, w.lexeme.toList = c :: cs := by
  unfold Proper at h
  split at h
  case h_1 =>
    obtain ⟨c, cs, hchars, -, -⟩ := h
    exact ⟨c, cs, hchars⟩
  case h_2 => exact List.exists_cons_of_ne_nil h.ne_nil
  case h_3 =>
    obtain ⟨c, hchars, -⟩ := h
    exact ⟨c, [], hchars⟩

theorem Proper.kind_ne_blank {w : Word} (h : w.Proper) : w.kind ≠ .blank := by
  intro hk
  simp only [Proper, hk] at h
  obtain ⟨c, -, hkind⟩ := h
  unfold Token.punctuation? at hkind
  split at hkind <;> cases hkind

/-- A word stops before one that it does not run into. -/
theorem stops_of_apart {w next : Word} {rest : List Char} (hnext : next.Proper)
    (h : w.Apart next) : Token.Stops w.kind (next.lexeme.toList ++ rest) := by
  obtain ⟨c, cs, hchars⟩ := hnext.chars_ne_nil
  have hpunctuation : w.kind = .name ∨ w.kind = .number →
      Token.isNameRest c = false ∧ c.isDigit = false ∧ c ≠ '.' := by
    intro hw
    obtain ⟨hname, hnumber, hdot⟩ := h hw
    unfold Proper at hnext
    split at hnext
    case h_1 hkind => exact absurd hkind hname
    case h_2 hkind => exact absurd hkind hnumber
    case h_3 =>
      obtain ⟨d, hd, hkind⟩ := hnext
      rw [hchars, List.cons.injEq] at hd
      obtain ⟨rfl, rfl⟩ := hd
      unfold Token.punctuation? at hkind
      split at hkind <;>
        first | decide | exact absurd (Option.some.inj hkind).symm hdot | cases hkind
  rw [hchars, List.cons_append]
  cases hk : w.kind <;> try trivial
  case name =>
    intro d hd
    cases hd
    exact (hpunctuation (.inl hk)).1
  case number =>
    intro d hd
    cases hd
    exact (hpunctuation (.inr hk)).2

/-- The words of a text in which they are written one after the other. -/
theorem ofTokens_scan {ws : List Word} (hproper : ∀ w ∈ ws, w.Proper) (hapart : ws.IsChain Apart)
    (steps offset : Nat) (hsteps : (spell ws).length ≤ steps) :
    ofTokens (Token.scan steps offset (spell ws)) = ws := by
  induction ws generalizing steps offset with
  | nil => cases steps <;> rfl
  | cons w ws ih =>
    have hw : w.Proper := hproper w (.head _)
    obtain ⟨c, cs, hchars⟩ := hw.chars_ne_nil
    have hstop : Token.Stops w.kind (spell ws) := by
      cases ws with
      | nil => cases w.kind <;> simp [Token.Stops]
      | cons next ws =>
        exact stops_of_apart (hproper next (by simp)) (List.isChain_cons_cons.1 hapart).1
    rw [spell_cons, hchars] at hsteps ⊢
    simp only [List.cons_append, List.length_cons, List.length_append] at hsteps
    obtain ⟨steps, rfl⟩ := Nat.exists_eq_add_one.2 (Nat.zero_lt_of_lt hsteps)
    have hrest := ih (fun v hv => hproper v (.tail _ hv)) hapart.of_cons steps
    have hblank : ∀ span, Token.isBlank ⟨w.kind, span, String.ofList (c :: cs)⟩ = false :=
      fun _ => beq_eq_false_iff_ne.2 hw.kind_ne_blank
    have hword : Token.word ⟨w.kind, ⟨offset, offset + Text.byteLength (c :: cs)⟩,
        String.ofList (c :: cs)⟩ = w := by
      rw [Token.word, ← hchars, String.ofList_toList]
    simp only [List.cons_append, Token.scan, Token.split_of_proper hw hchars hstop, ofTokens]
    rw [List.filter_cons_of_pos (by rw [hblank]; rfl), List.map_cons, hword]
    exact congrArg (w :: ·) (hrest _ (by omega))

/-- Words that can be written one after the other. -/
structure Legible (ws : List Word) : Prop where
  proper : ∀ w ∈ ws, w.Proper
  apart : ws.IsChain Apart

/-- The words of a text in which they are written one after the other. -/
theorem Legible.ofSource_spell {ws : List Word} (h : Legible ws) :
    ofSource (String.ofList (spell ws)) = ws := by
  unfold ofSource Token.tokenize
  rw [String.toList_ofList]
  exact ofTokens_scan h.proper h.apart _ 0 (Nat.le_refl _)

/-- What is neither a name nor a numeral nor a point runs into nothing, and nothing into it. -/
structure IsSign (w : Word) : Prop where
  proper : w.Proper
  kind : w.kind ≠ .name ∧ w.kind ≠ .number ∧ w.kind ≠ .dot

variable {w : Word} {us vs ws : List Word}

theorem legible_singleton (h : w.Proper) : Legible [w] :=
  ⟨List.forall_mem_singleton.2 h, List.isChain_singleton w⟩

theorem legible_nil : Legible [] := ⟨nofun, .nil⟩

theorem Legible.sign_cons (hv : Legible vs) (hw : w.IsSign) : Legible (w :: vs) := by
  refine ⟨List.forall_mem_cons.2 ⟨hw.proper, hv.proper⟩, List.isChain_cons.2 ⟨?_, hv.apart⟩⟩
  intro _ _ hkind
  exact absurd hkind (not_or_intro hw.kind.1 hw.kind.2.1)

theorem Legible.sign (hu : Legible us) (hw : w.IsSign) (hv : Legible vs) :
    Legible (us ++ w :: vs) := by
  have hwv := hv.sign_cons hw
  refine ⟨List.forall_mem_append.2 ⟨hu.proper, hwv.proper⟩,
    List.isChain_append.2 ⟨hu.apart, hwv.apart, fun u _ v hvw _ => ?_⟩⟩
  cases hvw
  exact hw.kind

theorem isSign_minus : IsSign ⟨.minus, "-"⟩ := ⟨⟨'-', rfl, rfl⟩, by decide⟩

theorem isSign_quote : IsSign ⟨.quote, "'"⟩ := ⟨⟨'\x27', rfl, rfl⟩, by decide⟩

theorem isSign_openParen : IsSign ⟨.openParen, "("⟩ := ⟨⟨'(', rfl, rfl⟩, by decide⟩

theorem isSign_closeParen : IsSign ⟨.closeParen, ")"⟩ := ⟨⟨')', rfl, rfl⟩, by decide⟩

/-- Words in brackets. -/
def bracketed (ws : List Word) : List Word :=
  ⟨.openParen, "("⟩ :: (ws ++ [⟨.closeParen, ")"⟩])

theorem Legible.bracketed (h : Legible ws) : Legible (bracketed ws) :=
  (h.sign isSign_closeParen legible_nil).sign_cons isSign_openParen

/-- A function of words in brackets. -/
theorem Legible.called {name : String} (h : Legible ws) (hname : IsName name.toList) :
    Legible (⟨.name, name⟩ :: Word.bracketed ws) := by
  have hcall : Legible [⟨.name, name⟩] := legible_singleton hname
  exact hcall.sign isSign_openParen (h.sign isSign_closeParen legible_nil)

end Word

/-- The name that a text starts with. -/
theorem Token.isName_of_split {c : Char} {cs lexeme rest : List Char}
    (h : split c cs = (.name, lexeme, rest)) : IsName lexeme := by
  unfold split at h
  split at h
  case isTrue => cases h
  case isFalse =>
    split at h
    case isTrue hstart =>
      have hrest : isNameRest c = true := by simp [isNameRest, hstart]
      simp only [splitWhile, List.takeWhile_cons, hrest, if_true, Prod.mk.injEq] at h
      obtain ⟨-, rfl, -⟩ := h
      exact ⟨c, _, rfl, hstart, fun d hd => List.all_eq_true.1 List.all_takeWhile d hd⟩
    case isFalse =>
      split at h
      · cases h
      · unfold punctuation? at h
        split at h <;> cases h

/-- The names of a source text are names. -/
theorem Word.isName_of_mem_ofSource {source : String} {name : String}
    (h : ⟨.name, name⟩ ∈ ofSource source) : IsName name.toList := by
  have hscan : ∀ steps offset cs, ∀ t ∈ Token.scan steps offset cs, t.kind = .name →
      IsName t.lexeme.toList := by
    intro steps
    induction steps with
    | zero => intro _ _ t ht; cases ht
    | succ steps ih =>
      intro offset cs t ht hkind
      cases cs with
      | nil => cases ht
      | cons c cs =>
        simp only [Token.scan] at ht
        rcases List.mem_cons.1 ht with rfl | ht
        · rw [String.toList_ofList]
          exact Token.isName_of_split (Prod.ext hkind rfl)
        · exact ih _ _ t ht hkind
  obtain ⟨t, ht, hword⟩ := List.mem_map.1 h
  obtain ⟨hkind, hname⟩ := Word.mk.inj hword
  rw [← hname]
  exact hscan _ _ _ t (List.mem_filter.1 ht).1 hkind

end TraceCalculus
