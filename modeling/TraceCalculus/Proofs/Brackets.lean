import TraceCalculus.Proofs.Places

/-! # Which brackets belong together

Tokens are covered if at no place more brackets are closed than were opened (`Token.Covered`), and
balanced if as many are closed in the end (`Token.Balanced`). An opening bracket is closed by a
later closing one if what stands between the two is balanced, and the other way round
(`Token.IsClosed`, `Token.IsOpened`).

Balanced tokens have no bracket left for one outside them, and covered tokens have one as soon as
they are not balanced (`Covered.isOpened_iff`). What reads as a formula is balanced
(`Reads.balanced`).
-/

set_option autoImplicit false

namespace TraceCalculus

namespace Token

/-- How much deeper in brackets the text is behind a token than before it. -/
def Kind.rise : Kind → Int
  | .openParen => 1
  | .closeParen => -1
  | _ => 0

/-- How many more brackets the tokens open than they close. -/
def depth : List Token → Int
  | [] => 0
  | t :: ts => t.kind.rise + depth ts

/-- No bracket is closed before it is opened. -/
def Covered (ts : List Token) : Prop := ∀ us, us <+: ts → 0 ≤ depth us

/-- Every bracket has its partner among the tokens. -/
structure Balanced (ts : List Token) : Prop where
  covered : Covered ts
  depth_eq : depth ts = 0

/-- An opening bracket before these tokens has its partner among them. -/
def IsClosed (behind : List Token) : Prop :=
  ∃ mid t rest, behind = mid ++ t :: rest ∧ t.kind = .closeParen ∧ Balanced mid

/-- A closing bracket behind these tokens has its partner among them. -/
def IsOpened (before : List Token) : Prop :=
  ∃ rest t mid, before = rest ++ t :: mid ∧ t.kind = .openParen ∧ Balanced mid

variable {ts us vs : List Token} {t : Token}

/-! ## How deep a text ends -/

@[simp] theorem depth_nil : depth [] = 0 := rfl

@[simp] theorem depth_cons (t : Token) (ts : List Token) :
    depth (t :: ts) = t.kind.rise + depth ts := rfl

@[simp] theorem depth_append (us vs : List Token) : depth (us ++ vs) = depth us + depth vs := by
  induction us with
  | nil => simp
  | cons u us ih => simp [ih, Int.add_assoc]

/-- White space opens and closes nothing. -/
theorem depth_solid (ts : List Token) : depth (solid ts) = depth ts := by
  induction ts with
  | nil => rfl
  | cons t ts ih =>
    rw [depth_cons, ← ih]
    cases hb : t.isBlank with
    | true =>
      have hkind : t.kind = .blank := by simpa [isBlank] using hb
      simp [solid, hb, hkind, Kind.rise]
    | false => simp [solid, hb]

theorem Kind.rise_eq_zero {k : Kind} (ho : k ≠ .openParen) (hc : k ≠ .closeParen) : k.rise = 0 := by
  cases k <;> first | rfl | contradiction

theorem Kind.ne_closeParen {k : Kind} (h : k.rise = 0) : k ≠ .closeParen := by
  rintro rfl
  cases h

theorem Kind.rise_nonneg {k : Kind} (hc : k ≠ .closeParen) : 0 ≤ k.rise := by
  cases k <;> first | decide | contradiction

/-! ## Covered tokens -/

theorem covered_nil : Covered [] := by
  intro us hus
  rw [List.prefix_nil.1 hus]
  exact Int.le_refl _

theorem Covered.of_prefix (h : Covered ts) (hus : us <+: ts) : Covered us :=
  fun vs hvs => h vs (hvs.trans hus)

theorem covered_concat : Covered (ts ++ [t]) ↔ Covered ts ∧ 0 ≤ depth (ts ++ [t]) := by
  refine ⟨fun h => ⟨h.of_prefix (List.prefix_append _ _), h _ (List.prefix_refl _)⟩, ?_⟩
  rintro ⟨hts, hdepth⟩ us hus
  rcases List.prefix_concat_iff.1 hus with rfl | hus
  · exact hdepth
  · exact hts us hus

theorem Covered.append (hu : Covered us) (hv : Covered vs) : Covered (us ++ vs) := by
  rintro ws ⟨rest, hws⟩
  rcases List.append_eq_append_iff.1 hws with ⟨mid, rfl, -⟩ | ⟨mid, rfl, rfl⟩
  · exact hu ws (List.prefix_append _ _)
  · have hmid := hv mid (List.prefix_append _ _)
    have hall := hu us (List.prefix_refl _)
    rw [depth_append]
    omega

theorem covered_singleton (h : t.kind ≠ .closeParen) : Covered [t] := by
  rw [← List.nil_append [t], covered_concat]
  exact ⟨covered_nil, by simpa using Kind.rise_nonneg h⟩

theorem Covered.cons (ht : t.kind ≠ .closeParen) (h : Covered ts) : Covered (t :: ts) :=
  (covered_singleton ht).append h

/-- White space between the tokens does not matter. -/
theorem Covered.of_solid (h : Covered (solid ts)) : Covered ts := by
  intro us hus
  rw [← depth_solid]
  exact h (solid us) (hus.filter _)

/-! ## Balanced tokens -/

theorem Balanced.of_solid (h : Balanced (solid ts)) : Balanced ts :=
  ⟨h.covered.of_solid, by rw [← depth_solid, h.depth_eq]⟩

theorem balanced_nil : Balanced [] := ⟨covered_nil, rfl⟩

theorem balanced_singleton (h : t.kind.rise = 0) : Balanced [t] :=
  ⟨covered_singleton (Kind.ne_closeParen h), by simpa using h⟩

theorem Balanced.append (hu : Balanced us) (hv : Balanced vs) : Balanced (us ++ vs) :=
  ⟨hu.covered.append hv.covered, by rw [depth_append, hu.depth_eq, hv.depth_eq]; rfl⟩

/-- Tokens behind balanced ones are balanced if all of them are. -/
theorem Balanced.of_append (hu : Balanced us) (h : Balanced (us ++ vs)) : Balanced vs := by
  have hdepth : ∀ ws, depth (us ++ ws) = depth ws := by
    intro ws
    rw [depth_append, hu.depth_eq, Int.zero_add]
  refine ⟨fun ws hws => ?_, by rw [← hdepth, h.depth_eq]⟩
  rw [← hdepth]
  exact h.covered _ ((List.prefix_append_right_inj us).2 hws)

theorem Balanced.bracketed {opening closing : Token} (ho : opening.kind = .openParen)
    (hc : closing.kind = .closeParen) (h : Balanced ts) :
    Balanced (opening :: ts ++ [closing]) := by
  have hopening : opening.kind ≠ .closeParen := by simp [ho]
  have hdepth : depth (opening :: ts ++ [closing]) = 0 := by
    simp [ho, hc, h.depth_eq, Kind.rise]
  exact ⟨covered_concat.2 ⟨h.covered.cons hopening, Int.le_of_eq hdepth.symm⟩, hdepth⟩

/-- Balanced tokens open no bracket that is closed behind them. -/
theorem Balanced.not_isOpened (h : Balanced ts) : ¬ IsOpened ts := by
  rintro ⟨rest, t, mid, rfl, ht, hmid⟩
  have hle := h.covered rest (List.prefix_append _ _)
  have heq := h.depth_eq
  rw [depth_append, depth_cons, hmid.depth_eq, ht] at heq
  simp only [Kind.rise] at heq
  omega

/-- Balanced tokens close no bracket that was opened before them. -/
theorem Balanced.isClosed_append (h : Balanced us) : IsClosed (us ++ vs) ↔ IsClosed vs := by
  constructor
  · rintro ⟨mid, t, rest, heq, ht, hmid⟩
    rcases List.append_eq_append_iff.1 heq with ⟨ws, rfl, hvs⟩ | ⟨ws, rfl, hws⟩
    · exact ⟨ws, t, rest, hvs, ht, h.of_append hmid⟩
    · cases ws with
      | nil => exact ⟨[], t, rest, by simpa using hws.symm, ht, balanced_nil⟩
      | cons w ws =>
        obtain ⟨rfl, -⟩ := List.cons.inj hws
        have hle := h.covered (mid ++ [t]) ⟨ws, by simp⟩
        rw [depth_append, depth_cons, hmid.depth_eq, ht] at hle
        exact absurd hle (by decide)
  · rintro ⟨mid, t, rest, rfl, ht, hmid⟩
    exact ⟨us ++ mid, t, rest, (List.append_assoc _ _ _).symm, ht, h.append hmid⟩

theorem Balanced.not_isClosed (h : Balanced ts) : ¬ IsClosed ts := by
  rw [← List.append_nil ts, h.isClosed_append]
  rintro ⟨mid, t, rest, heq, -⟩
  simp at heq

/-- Covered tokens that open more brackets than they close have one that can be closed next. -/
theorem Covered.isOpened (h : Covered ts) (hdepth : depth ts ≠ 0) : IsOpened ts := by
  -- Before a closing bracket its partner is passed over too, so the induction is on the length.
  induction hlength : ts.length using Nat.strongRecOn generalizing ts with
  | ind n ih =>
    rcases List.eq_nil_or_concat ts with rfl | ⟨us, t, rfl⟩
    · exact absurd rfl hdepth
    · rw [List.concat_eq_append] at *
      have hus : Covered us := h.of_prefix (List.prefix_append _ _)
      have hlt : us.length < n := by simp at hlength; omega
      have hle : 0 ≤ depth (us ++ [t]) := h _ (List.prefix_refl _)
      rw [depth_append, depth_cons, depth_nil] at hdepth hle
      by_cases ho : t.kind = .openParen
      · exact ⟨us, t, [], rfl, ho, balanced_nil⟩
      · by_cases hc : t.kind = .closeParen
        · rw [hc] at hdepth hle
          simp only [Kind.rise] at hdepth hle
          obtain ⟨rest, u, mid, rfl, hu, hmid⟩ := ih _ hlt hus (by omega) rfl
          have hrest : Covered rest := hus.of_prefix (List.prefix_append _ _)
          rw [depth_append, depth_cons, hmid.depth_eq, hu] at hdepth hle
          simp only [Kind.rise] at hdepth hle
          obtain ⟨rest', u', mid', rfl, hu', hmid'⟩ :=
            ih rest.length (by simp at hlt; omega) hrest (by omega) rfl
          exact ⟨rest', u', mid' ++ (u :: mid ++ [t]), by simp, hu',
            hmid'.append (hmid.bracketed hu hc)⟩
        · have hrise := Kind.rise_eq_zero ho hc
          rw [hrise] at hdepth
          obtain ⟨rest, u, mid, rfl, hu, hmid⟩ := ih _ hlt hus (by omega) rfl
          exact ⟨rest, u, mid ++ [t], by simp, hu, hmid.append (balanced_singleton hrise)⟩

/-- Among covered tokens a bracket is left open exactly if they are not balanced. -/
theorem Covered.isOpened_iff (h : Covered ts) : IsOpened ts ↔ ¬ Balanced ts := by
  refine ⟨fun ho hb => hb.not_isOpened ho, fun hb => h.isOpened fun hdepth => hb ⟨h, hdepth⟩⟩

/-- The signs that an operand follows. -/
def Kind.isOperator : Kind → Bool
  | .plus | .minus | .times => true
  | _ => false

theorem Kind.rise_of_isOperator {k : Kind} (h : k.isOperator = true) : k.rise = 0 := by
  cases k <;> first | rfl | cases h

end Token

namespace Formula

open Token

variable {S : Type} [Scalar S] {ts : List Token} {f : Formula S} {k : Kind} {op : Operator}

theorem isOperator_of_termOperator? (h : termOperator? k = some op) : k.isOperator = true := by
  cases k <;> first | rfl | cases h

theorem isOperator_of_factorOperator? (h : factorOperator? k = some op) : k.isOperator = true := by
  cases k <;> first | rfl | cases h

/-- A formula closes the brackets it opens, and no others. -/
theorem Reads.balanced {l : Level} (h : Reads l ts f) : Balanced ts := by
  have hplain : ∀ {t : Token} {kind : Kind}, t.kind = kind → kind.rise = 0 → Balanced [t] := by
    rintro t _ rfl
    exact balanced_singleton
  have hoperator : ∀ {t : Token}, t.kind.isOperator = true → Balanced [t] := fun h =>
    balanced_singleton (Kind.rise_of_isOperator h)
  induction h with
  | ofProduct _ ih | ofSigned _ ih | ofOperand _ ih | ofAtom _ ih => exact ih
  | term sign hop _ _ iha ihb =>
    exact iha.append ((hoperator (isOperator_of_termOperator? hop)).append ihb)
  | factor sign hop _ _ iha ihb =>
    exact iha.append ((hoperator (isOperator_of_factorOperator? hop)).append ihb)
  | neg sign hkind _ ih => exact (hplain hkind rfl).append ih
  | quote mark hkind _ ih => exact ih.append (hplain hkind rfl)
  | dot mark letter hkind hname _ ih =>
    exact ih.append ((hplain hkind rfl).append (hplain hname.1 rfl))
  | number token hkind | symbol token hkind => exact hplain hkind rfl
  | call name opening closing hname hopening hclosing _ ih =>
    exact (hplain hname rfl).append (ih.bracketed hopening hclosing)
  | paren opening closing hopening hclosing _ ih => exact ih.bracketed hopening hclosing

end Formula

end TraceCalculus
