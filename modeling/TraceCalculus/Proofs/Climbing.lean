import TraceCalculus.Formula.Parser

/-! # Climbing and reading level by level

The parser climbs: one reader is told how tightly the operators have to bind, and calls itself for
what stands on their right. The grammar has a level for each precedence instead: a sum joins
products, a product joins signed operands, and each level has a reader of its own (`Formula.sum`,
`Formula.product`, `Formula.factor`). The two do the same, errors and places included
(`Formula.parser_eq_nested`): told to read factors, climbing reads a product; told to read anything,
it first reads the factors that follow, and the first operator it then meets is one between terms.

Both are bounded by the number of tokens left, so they are compared where there are few of them
(`Parser.Alike`), by induction on how many.
-/

set_option autoImplicit false

namespace TraceCalculus

namespace Parser

variable {α β : Type}

/-! ## One reader after another -/

theorem bind_eq_ok {p : Parser α} {q : α → Parser β} {c c' : Cursor} {b : β}
    (h : (p >>= q) c = .ok b c') : ∃ a d, p c = .ok a d ∧ q a d = .ok b c' := by
  change EStateM.bind p q c = .ok b c' at h
  unfold EStateM.bind at h
  split at h
  case h_1 a d heq => exact ⟨a, d, heq, h⟩
  case h_2 => cases h

theorem bind_eq_error {p : Parser α} {q : α → Parser β} {c c' : Cursor} {e : Located ParseError}
    (h : (p >>= q) c = .error e c') :
    p c = .error e c' ∨ ∃ a d, p c = .ok a d ∧ q a d = .error e c' := by
  change EStateM.bind p q c = .error e c' at h
  unfold EStateM.bind at h
  split at h
  case h_1 a d heq => exact .inr ⟨a, d, heq, h⟩
  case h_2 heq => cases h; exact .inl heq

theorem bind_ok {p : Parser α} (q : α → Parser β) {c d : Cursor} {a : α} (h : p c = .ok a d) :
    (p >>= q) c = q a d := by
  change EStateM.bind p q c = _
  unfold EStateM.bind
  rw [h]

theorem bind_error {p : Parser α} (q : α → Parser β) {c d : Cursor} {e : Located ParseError}
    (h : p c = .error e d) : (p >>= q) c = .error e d := by
  change EStateM.bind p q c = _
  unfold EStateM.bind
  rw [h]

theorem bind_congr {p p' : Parser α} (q : α → Parser β) {c c' : Cursor} (h : p c = p' c') :
    (p >>= q) c = (p' >>= q) c' := by
  cases hp : p c with
  | ok a d => rw [bind_ok q hp, bind_ok q (h ▸ hp)]
  | error e d => rw [bind_error q hp, bind_error q (h ▸ hp)]

theorem get_ok (c : Cursor) : (get : Parser Cursor) c = .ok c c := rfl

theorem length_of_next {c d : Cursor} {t : Token} (h : next c = .ok t d) :
    d.rest.length < c.rest.length := by
  have hblanks : c.skipBlanks.rest.length ≤ c.rest.length := (List.dropWhile_suffix _).length_le
  simp only [next] at h
  split at h <;> cases h
  case h_1 heq =>
    rw [heq] at hblanks
    exact hblanks

/-- The cursor faces the token that is taken next. -/
theorem facing_of_next {c d : Cursor} {t : Token} (h : next c = .ok t d) (kind : Token.Kind) :
    c.facing kind = (t.kind == kind) := by
  simp only [next] at h
  split at h <;> cases h
  case h_1 heq => simp [Cursor.facing, Cursor.peek?, Cursor.current?, heq]

theorem facing_of_next_error {c d : Cursor} {e : Located ParseError} (h : next c = .error e d)
    (kind : Token.Kind) : c.facing kind = false := by
  simp only [next] at h
  split at h <;> cases h
  case h_2 heq => simp [Cursor.facing, Cursor.peek?, Cursor.current?, heq]

/-- The token that a reader takes is of the kind the cursor faces. -/
theorem kind_of_facing {c d : Cursor} {t : Token} {kind : Token.Kind}
    (hc : c.facing kind = true) (h : next c = .ok t d) : t.kind = kind := by
  rw [facing_of_next h] at hc
  exact beq_iff_eq.1 hc

/-- The next token is none that `admits` allows. -/
def Stops (admits : Token.Kind → Option Operator) (c : Cursor) : Prop :=
  ∀ t d, next c = .ok t d → admits t.kind = none

theorem exists_of_not_stops {admits : Token.Kind → Option Operator} {c : Cursor}
    (h : ¬ Stops admits c) : ∃ t d op, next c = .ok t d ∧ admits t.kind = some op := by
  simp only [Stops, Classical.not_forall] at h
  obtain ⟨t, d, hnext, hadmits⟩ := h
  obtain ⟨op, hop⟩ := Option.ne_none_iff_exists'.1 hadmits
  exact ⟨t, d, op, hnext, hop⟩

theorem stops_of_length {admits : Token.Kind → Option Operator} {c : Cursor}
    (h : c.rest.length ≤ 0) : Stops admits c :=
  fun _ _ hnext => absurd (length_of_next hnext) (Nat.not_lt.2 (Nat.le_trans h (Nat.zero_le _)))

/-! ## Readers that do the same -/

/-- With at most `bound` tokens left the readers do the same, and take none back. -/
def Alike (bound : Nat) (p q : Parser α) : Prop :=
  ∀ c, c.rest.length ≤ bound → p c = q c ∧ ∀ a d, p c = .ok a d → d.rest.length ≤ c.rest.length

section Alike

variable {bound : Nat} {p q : Parser α}

theorem Alike.mono {bound' : Nat} (h : Alike bound p q) (hle : bound' ≤ bound) :
    Alike bound' p q :=
  fun c hc => h c (Nat.le_trans hc hle)

theorem Alike.left (h : Alike bound p q) : Alike bound p p := fun c hc => ⟨rfl, (h c hc).2⟩

theorem alike_pure (a : α) : Alike bound (pure a) (pure a) :=
  fun _ _ => ⟨rfl, by rintro _ _ ⟨⟩; exact Nat.le_refl _⟩

theorem alike_get : Alike bound (get : Parser Cursor) get :=
  fun _ _ => ⟨rfl, by rintro _ _ ⟨⟩; exact Nat.le_refl _⟩

theorem alike_fail (cause : ParseError) (span : Span) :
    Alike (α := α) bound (fail cause span) (fail cause span) :=
  fun _ _ => ⟨rfl, nofun⟩

theorem alike_ended : Alike (α := α) bound ended ended := fun _ _ => ⟨rfl, nofun⟩

theorem Alike.bind {f g : α → Parser β} (h : Alike bound p q)
    (hfg : ∀ a, Alike bound (f a) (g a)) : Alike bound (p >>= f) (q >>= g) := by
  intro c hc
  obtain ⟨heq, hshort⟩ := h c hc
  cases hp : p c with
  | error e d =>
    rw [bind_error f hp, bind_error g (heq ▸ hp)]
    exact ⟨rfl, nofun⟩
  | ok a d =>
    have hd := hshort a d hp
    rw [bind_ok f hp, bind_ok g (heq ▸ hp)]
    obtain ⟨heq', hshort'⟩ := hfg a d (Nat.le_trans hd hc)
    exact ⟨heq', fun b d' hd' => Nat.le_trans (hshort' b d' hd') hd⟩

/-- What follows on a token has one token less. -/
theorem alike_next_bind {f g : Token → Parser β} (h : ∀ t, Alike bound (f t) (g t)) :
    Alike (bound + 1) (next >>= f) (next >>= g) := by
  intro c hc
  cases hnext : next c with
  | error e d =>
    rw [bind_error f hnext, bind_error g hnext]
    exact ⟨rfl, nofun⟩
  | ok t d =>
    have hd := length_of_next hnext
    rw [bind_ok f hnext, bind_ok g hnext]
    obtain ⟨heq, hshort⟩ := h t d (Nat.le_of_lt_succ (Nat.lt_of_lt_of_le hd hc))
    exact ⟨heq, fun b d' hd' => Nat.le_trans (hshort b d' hd') (Nat.le_of_lt hd)⟩

end Alike

end Parser

namespace Formula

open TraceCalculus.Parser (Alike alike_pure alike_get alike_fail alike_ended alike_next_bind)

variable {S : Type}

/-! ## Signs and operators -/

/-- Trying to read a minus sign tells whether one is next. -/
theorem sign_cases (c : Cursor) :
    (∃ minus d, Parser.next c = .ok minus d ∧ c.facing .minus = true ∧ sign c = .ok minus d) ∨
      c.facing .minus = false ∧ ∃ e, sign c = .error e c := by
  unfold sign Parser.restoring
  cases hnext : Parser.next c with
  | error e d =>
    rw [Parser.bind_error _ hnext]
    exact .inr ⟨Parser.facing_of_next_error hnext _, e, rfl⟩
  | ok t d =>
    rw [Parser.bind_ok _ hnext, Parser.facing_of_next hnext, beq_eq_false_iff_ne, beq_iff_eq]
    by_cases hkind : t.kind = .minus
    · rw [if_pos hkind]
      exact .inl ⟨t, d, rfl, hkind, rfl⟩
    · rw [if_neg hkind]
      exact .inr ⟨hkind, _, rfl⟩

/-- The operator that a token stands for, if it binds at least as tightly as `min`. -/
def admitted (min : Precedence) (kind : Token.Kind) : Option Operator :=
  (operator? kind).filter (min ≤ ·.precedence)

/-- Where no operator can be read, the cursor stays. -/
theorem operator_eq (min : Precedence) (c : Cursor) :
    operator min c = match Parser.next c with
      | .error e _ => .error e c
      | .ok token d =>
        match admitted min token.kind with
        | none => .error (.on .nonFatal token.span) c
        | some op => .ok (op, token.span) d := by
  unfold operator Parser.restoring
  cases hnext : Parser.next c with
  | error e d => rw [Parser.bind_error _ hnext]
  | ok token d =>
    rw [Parser.bind_ok _ hnext]
    dsimp only [admitted]
    cases operator? token.kind with
    | none => rfl
    | some op =>
      dsimp only
      by_cases hmin : min ≤ op.precedence
      · rw [if_pos hmin, Option.filter_some_pos (by simpa using hmin)]
        rfl
      · rw [if_neg hmin, Option.filter_some_neg (by simpa using hmin)]
        rfl

section Climb

variable {expression : Precedence → Parser (Formula S)} {min : Precedence} {turns : Nat}
  {lhs : Formula S} {c d : Cursor}

theorem climb_of_stops (h : Parser.Stops (admitted min) c) :
    climb expression min turns lhs c = .ok lhs c := by
  cases turns with
  | zero => rfl
  | succ turns =>
    simp only [climb, operator_eq]
    cases hnext : Parser.next c with
    | error e d => rfl
    | ok token d => simp only [h token d hnext]

/-- A turn of climbing. -/
theorem climb_of_next {token : Token} {op : Operator} (hnext : Parser.next c = .ok token d)
    (hop : admitted min token.kind = some op) :
    climb expression min (turns + 1) lhs c = (expression op.precedence.tighter >>= fun rhs =>
      climb expression min turns
        (.binary op token.span lhs rhs (lhs.span.through rhs.span))) d := by
  simp only [climb, operator_eq, hnext, hop]
  cases hrhs : expression op.precedence.tighter d with
  | error e d' => rw [Parser.bind_error _ hrhs]
  | ok rhs d' => rw [Parser.bind_ok _ hrhs]

end Climb

section Signed

variable [Scalar S] {inner : Parser (Formula S)}

/-- In front of a minus sign a negation is read. -/
theorem signed_of_facing (turns : Nat) {c : Cursor} (h : c.facing .minus = true) :
    signed inner (turns + 1) c = (do
      let minus ← Parser.next
      let formula ← signed inner turns
      return .neg formula (minus.span.through formula.span) : Parser (Formula S)) c := by
  rcases sign_cases c with ⟨minus, d, hnext, -, hsign⟩ | ⟨hc, -⟩
  · rw [Parser.bind_ok _ hnext]
    simp only [signed, hsign]
    cases hoperand : signed inner turns d with
    | error e d' => rw [Parser.bind_error _ hoperand]
    | ok formula d' => rw [Parser.bind_ok _ hoperand]; rfl
  · rw [hc] at h
    cases h

theorem signed_of_not_facing (turns : Nat) {c : Cursor} (h : ¬ c.facing .minus = true) :
    signed inner (turns + 1) c = operand inner c := by
  rcases sign_cases c with ⟨minus, d, -, hc, -⟩ | ⟨-, e, hsign⟩
  · exact absurd hc h
  · simp only [signed, hsign]

end Signed

/-! ## The readers of the levels -/

/-- Reads further operands behind `lhs`, each after an operator that `admits` allows, and joins
them from the left. -/
def chain (admits : Token.Kind → Option Operator) (next : Parser (Formula S)) :
    Nat → Formula S → Parser (Formula S)
  | 0, lhs => pure lhs
  | turns + 1, lhs => fun c =>
    match Parser.next c with
    | .error _ _ => .ok lhs c
    | .ok token after =>
      match admits token.kind with
      | none => .ok lhs c
      | some op =>
        match next after with
        | .error e after => .error e after
        | .ok rhs after =>
          chain admits next turns
            (.binary op token.span lhs rhs (lhs.span.through rhs.span)) after

/-- The operator that separates factors. -/
def factorOperator? : Token.Kind → Option Operator
  | .times => some .times
  | _ => none

/-- The operators that separate terms. -/
def termOperator? : Token.Kind → Option Operator
  | .plus => some .plus
  | .minus => some .minus
  | _ => none

/-- Reads a factor. -/
def factor [Scalar S] (inner : Parser (Formula S)) : Parser (Formula S) :=
  fun c => signed inner c.rest.length c

/-- Reads a product. -/
def product [Scalar S] (inner : Parser (Formula S)) : Parser (Formula S) := do
  let lhs ← factor inner
  chain factorOperator? (factor inner) (← get).rest.length lhs

/-- Reads a sum of products. -/
def sum [Scalar S] (inner : Parser (Formula S)) : Parser (Formula S) := do
  let lhs ← product inner
  chain termOperator? (product inner) (← get).rest.length lhs

/-- Reads a formula with brackets nested less than `depth` deep. -/
def nested [Scalar S] : Nat → Parser (Formula S)
  | 0 => Parser.ended
  | depth + 1 => sum (nested depth)

section Chain

variable {admits : Token.Kind → Option Operator} {next : Parser (Formula S)} {turns : Nat}
  {lhs : Formula S} {c d : Cursor}

theorem chain_of_stops (h : Parser.Stops admits c) :
    chain admits next turns lhs c = .ok lhs c := by
  cases turns with
  | zero => rfl
  | succ turns =>
    simp only [chain]
    cases hnext : Parser.next c with
    | error e d => rfl
    | ok token d =>
      simp only [h token d hnext]

/-- A turn of a chain. -/
theorem chain_of_next {token : Token} {op : Operator} (hnext : Parser.next c = .ok token d)
    (hop : admits token.kind = some op) :
    chain admits next (turns + 1) lhs c = (next >>= fun rhs => chain admits next turns
      (.binary op token.span lhs rhs (lhs.span.through rhs.span))) d := by
  simp only [chain, hnext, hop]
  cases hrhs : next d with
  | error e d' => rw [Parser.bind_error _ hrhs]
  | ok rhs d' => rw [Parser.bind_ok _ hrhs]

end Chain

/-! ## Inside brackets -/

/-- Closes a bracket behind the formula inside. -/
def closed (opening : Span) (f : Formula S) : Parser (Formula S × Span) := fun c =>
  match Parser.next c with
  | .error _ after => .error (.on (.unclosedParenthesis true) opening) after
  | .ok closing after =>
    if closing.kind = .closeParen then .ok (f, opening.through closing.span) after
    else .error (.on (.unclosedParenthesis true) opening) after

/-- What is read behind an opening bracket, which depends on the token that follows. -/
def opened (inner : Parser (Formula S)) (opening : Span) : Option Token → Parser (Formula S × Span)
  | some closing =>
    if closing.kind = .closeParen then do
      Parser.fail .emptyParenthesis (opening.through closing.span)
      inner >>= closed opening
    else inner >>= closed opening
  | none => inner >>= closed opening

theorem bracketed_eq (inner : Parser (Formula S)) : bracketed inner = (do
    let opening ← Parser.next
    opened inner opening.span (← get).peek?) := rfl

/-! ## Readers that do the same with what is inside brackets -/

section Alike

variable {bound : Nat} {inner inner' : Parser (Formula S)}

theorem alike_transposes (turns : Nat) (f : Formula S) :
    Alike bound (transposes turns f) (transposes turns f) := by
  suffices hshort : ∀ c g d, transposes turns f c = .ok g d → d.rest.length ≤ c.rest.length from
    fun c _ => ⟨rfl, hshort c⟩
  intro c g d h
  induction turns generalizing f c with
  | zero => cases h; exact Nat.le_refl _
  | succ turns ih =>
    simp only [transposes] at h
    split at h
    case h_1 => cases h; exact Nat.le_refl _
    case h_2 mark after hmark =>
      have hafter := Nat.le_of_lt (Parser.length_of_next hmark)
      split at h
      case h_1 => exact Nat.le_trans (ih _ _ h) hafter
      case h_2 =>
        split at h
        case h_1 => cases h
        case h_2 letter after' hletter =>
          split at h
          case isTrue =>
            have hafter' := Nat.le_of_lt (Parser.length_of_next hletter)
            exact Nat.le_trans (ih _ _ h) (Nat.le_trans hafter' hafter)
          case isFalse => cases h
      case h_3 => cases h; exact Nat.le_refl _

theorem alike_closed (opening : Span) (f : Formula S) :
    Alike bound (closed opening f) (closed opening f) := by
  refine fun c _ => ⟨rfl, fun a d h => ?_⟩
  unfold closed at h
  split at h
  case h_1 => cases h
  case h_2 closing after hclosing =>
    split at h <;> cases h
    exact Nat.le_of_lt (Parser.length_of_next hclosing)

theorem alike_bracketed (h : Alike bound inner inner') :
    Alike (bound + 1) (bracketed inner) (bracketed inner') := by
  rw [bracketed_eq, bracketed_eq]
  refine alike_next_bind fun opening => alike_get.bind fun c => ?_
  have hinside := h.bind (alike_closed opening.span)
  unfold opened
  split
  · split
    · exact (alike_fail _ _).bind fun _ => hinside
    · exact hinside
  · exact hinside

variable [Scalar S]

theorem alike_atom (h : Alike bound inner inner') :
    Alike (bound + 1) (atom inner) (atom inner') := by
  have hbracketed := alike_bracketed h
  refine alike_get.bind fun c => ?_
  split
  · exact hbracketed.bind fun _ => alike_pure _
  · refine alike_next_bind fun token => ?_
    split
    · exact alike_pure _
    · refine alike_get.bind fun c => ?_
      split
      · exact (hbracketed.mono (Nat.le_succ _)).bind fun _ => alike_pure _
      · exact alike_pure _
    · exact alike_fail _ _
    · exact alike_fail _ _

theorem alike_operand (h : Alike bound inner inner') :
    Alike (bound + 1) (operand inner) (operand inner') :=
  (alike_atom h).bind fun _ => alike_get.bind fun _ => alike_transposes _ _

theorem alike_signed (h : Alike bound inner inner') (turns : Nat) :
    Alike (bound + 1) (signed inner turns) (signed inner' turns) := by
  induction turns with
  | zero => exact alike_ended
  | succ turns ih =>
    intro c hc
    by_cases hminus : c.facing .minus = true
    · rw [signed_of_facing _ hminus, signed_of_facing _ hminus]
      exact alike_next_bind (fun _ => (ih.mono (Nat.le_succ _)).bind fun _ => alike_pure _) c hc
    · rw [signed_of_not_facing _ hminus, signed_of_not_facing _ hminus]
      exact alike_operand h c hc

theorem alike_factor (h : Alike bound inner inner') :
    Alike (bound + 1) (factor inner) (factor inner') :=
  fun c hc => alike_signed h _ c hc

omit [Scalar S] in
/-- Chains of the same operands are the same, if there is a turn for each token left, and end where
there is no operator. -/
theorem alike_chain (admits : Token.Kind → Option Operator) {next next' : Parser (Formula S)}
    (h : Alike bound next next') {turns turns' : Nat} (lhs : Formula S) {c : Cursor}
    (hc : c.rest.length ≤ bound + 1) (hturns : c.rest.length ≤ turns)
    (hturns' : c.rest.length ≤ turns') :
    chain admits next turns lhs c = chain admits next' turns' lhs c ∧
      ∀ f d, chain admits next turns lhs c = .ok f d →
        d.rest.length ≤ c.rest.length ∧ Parser.Stops admits d := by
  induction turns generalizing turns' lhs c with
  | zero =>
    have hstops : Parser.Stops admits c := Parser.stops_of_length hturns
    rw [chain_of_stops hstops, chain_of_stops hstops]
    exact ⟨rfl, by rintro _ _ ⟨⟩; exact ⟨Nat.le_refl _, hstops⟩⟩
  | succ turns ih =>
    by_cases hstops : Parser.Stops admits c
    · rw [chain_of_stops hstops, chain_of_stops hstops]
      exact ⟨rfl, by rintro _ _ ⟨⟩; exact ⟨Nat.le_refl _, hstops⟩⟩
    · obtain ⟨token, d, op, hnext, hop⟩ := Parser.exists_of_not_stops hstops
      have hd := Parser.length_of_next hnext
      obtain ⟨turns', rfl⟩ := Nat.exists_eq_add_one.2 (show 0 < turns' by omega)
      rw [chain_of_next hnext hop, chain_of_next hnext hop]
      obtain ⟨heq, hshort⟩ := h d (by omega)
      cases hrhs : next d with
      | error e d' =>
        rw [Parser.bind_error _ hrhs, Parser.bind_error _ (heq ▸ hrhs)]
        exact ⟨rfl, nofun⟩
      | ok rhs d' =>
        have hd' := hshort rhs d' hrhs
        rw [Parser.bind_ok _ hrhs, Parser.bind_ok _ (heq ▸ hrhs)]
        have hrest : d'.rest.length ≤ turns' := by omega
        obtain ⟨heq', hend⟩ := ih (.binary op token.span lhs rhs (lhs.span.through rhs.span))
          (by omega) (by omega) hrest
        refine ⟨heq', fun f c' hf => ?_⟩
        obtain ⟨hc', hstops'⟩ := hend f c' hf
        exact ⟨by omega, hstops'⟩

end Alike

/-! ## Climbing level by level -/

section Climb

variable {expression : Precedence → Parser (Formula S)}

theorem admitted_factor : admitted .factor = factorOperator? := by
  funext kind
  cases kind <;> rfl

theorem admitted_any (kind : Token.Kind) :
    admitted .any kind = (factorOperator? kind).or (termOperator? kind) := by
  cases kind <;> rfl

/-- Right of a product sign stands a signed operand. -/
theorem tighter_of_factorOperator? {kind : Token.Kind} {op : Operator}
    (h : factorOperator? kind = some op) : op.precedence.tighter = .sign := by
  cases kind <;> cases h
  rfl

/-- Right of a sign between terms stands a product. -/
theorem tighter_of_termOperator? {kind : Token.Kind} {op : Operator}
    (h : termOperator? kind = some op) : op.precedence.tighter = .factor := by
  cases kind <;> cases h <;> rfl

/-- No operator binds as tightly as a sign. -/
theorem climb_sign (turns : Nat) (lhs : Formula S) :
    climb expression .sign turns lhs = pure lhs :=
  funext fun _ => climb_of_stops fun t _ _ => by cases t.kind <;> rfl

/-- Only factors are joined, if operators have to bind as tightly as there. -/
theorem climb_factor (turns : Nat) (lhs : Formula S) :
    climb expression .factor turns lhs = chain factorOperator? (expression .sign) turns lhs := by
  induction turns generalizing lhs with
  | zero => rfl
  | succ turns ih =>
    funext c
    by_cases hstops : Parser.Stops factorOperator? c
    · rw [climb_of_stops (by rwa [admitted_factor]), chain_of_stops hstops]
    · obtain ⟨token, d, op, hnext, hop⟩ := Parser.exists_of_not_stops hstops
      rw [climb_of_next hnext (by rwa [admitted_factor]), chain_of_next hnext hop,
        tighter_of_factorOperator? hop,
        funext fun rhs => ih (.binary op token.span lhs rhs (lhs.span.through rhs.span))]

/-- Climbing at will joins the factors that follow first. The operator it then meets is one between
terms, and no factor follows on a term. -/
theorem climb_any {bound : Nat} (hsign : Alike bound (expression .sign) (expression .sign))
    (hfactor : ∀ c, c.rest.length ≤ bound → ∀ f d, expression .factor c = .ok f d →
      d.rest.length ≤ c.rest.length ∧ Parser.Stops factorOperator? d)
    {turns turns' : Nat} (hle : turns ≤ turns') (lhs : Formula S) {c : Cursor}
    (hc : c.rest.length ≤ bound + 1) (hturns : c.rest.length ≤ turns) :
    climb expression .any turns lhs c = (chain factorOperator? (expression .sign) turns lhs >>=
      chain termOperator? (expression .factor) turns') c := by
  induction turns generalizing turns' lhs c with
  | zero => exact (chain_of_stops (Parser.stops_of_length hturns)).symm
  | succ turns ih =>
    by_cases hfactors : Parser.Stops factorOperator? c
    · rw [Parser.bind_ok _ (chain_of_stops hfactors)]
      by_cases hterms : Parser.Stops termOperator? c
      · rw [chain_of_stops hterms, climb_of_stops fun t d hnext => ?_]
        rw [admitted_any, hfactors t d hnext, hterms t d hnext]
        rfl
      · obtain ⟨token, d, op, hnext, hop⟩ := Parser.exists_of_not_stops hterms
        have hd := Parser.length_of_next hnext
        obtain ⟨turns', rfl⟩ := Nat.exists_eq_add_one.2 (show 0 < turns' by omega)
        have hadmits : admitted .any token.kind = some op := by
          rw [admitted_any, hfactors token d hnext, hop]
          rfl
        rw [chain_of_next hnext hop, climb_of_next hnext hadmits, tighter_of_termOperator? hop]
        cases hrhs : expression .factor d with
        | error e d' => rw [Parser.bind_error _ hrhs, Parser.bind_error _ hrhs]
        | ok rhs d' =>
          obtain ⟨hd', hstops⟩ := hfactor d (by omega) rhs d' hrhs
          rw [Parser.bind_ok _ hrhs, Parser.bind_ok _ hrhs,
            ih (show turns ≤ turns' by omega) _ (by omega) (by omega),
            Parser.bind_ok _ (chain_of_stops hstops)]
    · obtain ⟨token, d, op, hnext, hop⟩ := Parser.exists_of_not_stops hfactors
      have hd := Parser.length_of_next hnext
      have hadmits : admitted .any token.kind = some op := by
        rw [admitted_any, hop]
        rfl
      rw [climb_of_next hnext hadmits, tighter_of_factorOperator? hop]
      have hchain : chain factorOperator? (expression .sign) (turns + 1) lhs c = _ :=
        chain_of_next hnext hop
      cases hrhs : expression .sign d with
      | error e d' =>
        rw [Parser.bind_error _ hrhs] at hchain ⊢
        exact (Parser.bind_error _ hchain).symm
      | ok rhs d' =>
        have hd' := (hsign d (by omega)).2 rhs d' hrhs
        rw [Parser.bind_ok _ hrhs] at hchain ⊢
        rw [ih (show turns ≤ turns' by omega) _ (by omega) (by omega)]
        exact (Parser.bind_congr _ hchain).symm

end Climb

variable [Scalar S] {bound : Nat}

theorem expression_succ (depth : Nat) (min : Precedence) :
    expression (S := S) (depth + 1) min = (do
      let lhs ← factor (expression depth .any)
      climb (expression depth) min (← get).rest.length lhs) := rfl

omit [Scalar S] in
theorem alike_joined {admits : Token.Kind → Option Operator} {next next' : Parser (Formula S)}
    (h : Alike bound next next') (lhs : Formula S) :
    Alike (bound + 1) (do chain admits next (← get).rest.length lhs)
      (do chain admits next' (← get).rest.length lhs) := by
  intro c hc
  obtain ⟨heq, hend⟩ := alike_chain admits h lhs hc (Nat.le_refl _) (Nat.le_refl _)
  exact ⟨heq, fun f d hf => (hend f d hf).1⟩

/-- Behind a product no factor follows. -/
theorem stops_of_product {inner : Parser (Formula S)} (h : Alike bound inner inner) {c d : Cursor}
    {f : Formula S} (hc : c.rest.length ≤ bound + 1) (hf : product inner c = .ok f d) :
    Parser.Stops factorOperator? d := by
  obtain ⟨lhs, d', hlhs, hf⟩ := Parser.bind_eq_ok hf
  have hfactor := alike_factor h
  have hd' := (hfactor c hc).2 lhs d' hlhs
  obtain ⟨-, hend⟩ := alike_chain factorOperator? hfactor lhs
    (Nat.le_succ_of_le (Nat.le_trans hd' hc)) (Nat.le_refl _) (Nat.le_refl _)
  exact (hend f d hf).2

/-- Where nothing is left to read, no reader of a level looks further. -/
theorem level_of_end {c : Cursor} (h : c.rest.length ≤ 0) (depth : Nat) (min : Precedence)
    (inner : Parser (Formula S)) :
    factor inner c = Parser.ended c ∧ product inner c = Parser.ended c ∧
      nested (S := S) depth c = Parser.ended c ∧
      expression (S := S) depth min c = Parser.ended c := by
  have hfactor : ∀ inner : Parser (Formula S), factor inner c = Parser.ended c := by
    intro inner
    rw [factor, Nat.le_zero.1 h, signed]
  have hproduct : ∀ inner : Parser (Formula S), product inner c = Parser.ended c :=
    fun inner => Parser.bind_error _ (hfactor inner)
  refine ⟨hfactor inner, hproduct inner, ?_, ?_⟩
  · cases depth with
    | zero => rfl
    | succ depth => exact Parser.bind_error _ (hproduct (nested depth))
  · cases depth with
    | zero => rfl
    | succ depth =>
      rw [expression_succ]
      exact Parser.bind_error _ (hfactor (expression depth .any))

/-- Climbing at will through the readers of the levels reads a sum. -/
theorem climb_alike_sum {expression : Precedence → Parser (Formula S)} {inner : Parser (Formula S)}
    (hany : Alike bound (expression .any) inner)
    (hsign : Alike bound (expression .sign) (factor inner))
    (hfactor : Alike bound (expression .factor) (product inner)) :
    Alike (bound + 1) (do
      let lhs ← factor (expression .any)
      climb expression .any (← get).rest.length lhs) (sum inner) := by
  have hinner : Alike bound inner inner := fun c hc => ⟨rfl, (hany c hc).1 ▸ (hany c hc).2⟩
  have hstops : ∀ c, c.rest.length ≤ bound → ∀ f d, expression .factor c = .ok f d →
      d.rest.length ≤ c.rest.length ∧ Parser.Stops factorOperator? d := by
    intro c hc f d hf
    obtain ⟨heq, hshort⟩ := hfactor c hc
    exact ⟨hshort f d hf, stops_of_product hinner (Nat.le_succ_of_le hc) (heq ▸ hf)⟩
  intro c hc
  obtain ⟨heq, hshort⟩ := alike_factor hany c hc
  cases hlhs : factor (expression .any) c with
  | error e d =>
    have hproduct : product inner c = .error e d := Parser.bind_error _ (heq ▸ hlhs)
    rw [Parser.bind_error _ hlhs, sum, Parser.bind_error _ hproduct]
    exact ⟨rfl, nofun⟩
  | ok lhs d =>
    have hd := hshort lhs d hlhs
    obtain ⟨hfactors, hshort'⟩ := alike_chain factorOperator? hsign lhs
      (Nat.le_trans hd hc) (Nat.le_refl _) (Nat.le_refl _)
    have hproduct : product inner c = chain factorOperator? (factor inner) d.rest.length lhs d :=
      Parser.bind_ok _ (heq ▸ hlhs)
    have hclimb : climb expression .any d.rest.length lhs d =
        (chain factorOperator? (expression .sign) d.rest.length lhs >>=
          chain termOperator? (expression .factor) d.rest.length) d :=
      climb_any hsign.left hstops (Nat.le_refl _) lhs (Nat.le_trans hd hc) (Nat.le_refl _)
    rw [Parser.bind_ok _ hlhs, Parser.bind_ok _ (Parser.get_ok d), hclimb, sum]
    cases hterm : chain factorOperator? (expression .sign) d.rest.length lhs d with
    | error e d' =>
      rw [Parser.bind_error _ hterm, Parser.bind_error _ (hproduct.trans (hfactors ▸ hterm))]
      exact ⟨rfl, nofun⟩
    | ok term d' =>
      have hd' := (hshort' term d' hterm).1
      rw [Parser.bind_ok _ hterm, Parser.bind_ok _ (hproduct.trans (hfactors ▸ hterm))]
      obtain ⟨hterms, hshort''⟩ := alike_chain termOperator? hfactor term
        (show d'.rest.length ≤ bound + 1 by omega) hd' (Nat.le_refl _)
      refine ⟨hterms, fun f e hf => ?_⟩
      have he := (hshort'' f e hf).1
      omega

/-- With a level of depth for each token left, climbing reads as the levels do. -/
theorem alike_levels {depth depth' : Nat} (h : bound ≤ depth) (h' : bound ≤ depth') :
    Alike bound (expression (S := S) depth .sign) (factor (nested depth')) ∧
      Alike bound (expression (S := S) depth .factor) (product (nested depth')) ∧
      Alike bound (expression (S := S) depth .any) (nested depth') := by
  induction bound generalizing depth depth' with
  | zero =>
    have hend : ∀ {p q : Parser (Formula S)}, (∀ c : Cursor, c.rest.length ≤ 0 →
        p c = Parser.ended c ∧ q c = Parser.ended c) → Alike 0 p q := by
      intro p q hpq c hc
      rw [(hpq c hc).1, (hpq c hc).2]
      exact ⟨rfl, nofun⟩
    refine ⟨hend fun c hc => ?_, hend fun c hc => ?_, hend fun c hc => ?_⟩ <;>
      simp only [level_of_end hc depth _ (nested depth'),
        level_of_end hc depth' .any (nested depth'), and_self]
  | succ bound ih =>
    obtain ⟨depth, rfl⟩ := Nat.exists_eq_add_one.2 (Nat.lt_of_lt_of_le (Nat.succ_pos _) h)
    obtain ⟨depth', rfl⟩ := Nat.exists_eq_add_one.2 (Nat.lt_of_lt_of_le (Nat.succ_pos _) h')
    have hle := Nat.le_of_succ_le_succ h
    obtain ⟨hsign, -, hany⟩ := ih hle (Nat.le_of_succ_le h')
    simp only [expression_succ]
    refine ⟨?_, ?_, ?_⟩
    · -- behind a signed operand there is nothing more to do
      have hpure : (fun lhs : Formula S => do
          climb (expression depth) .sign (← get).rest.length lhs) = pure := by
        simp only [climb_sign]
        rfl
      rw [hpure, bind_pure]
      exact alike_factor hany
    · simp only [climb_factor]
      exact (alike_factor hany).bind (alike_joined hsign)
    · obtain ⟨hsign, hfactor, hany⟩ := ih hle (Nat.le_of_succ_le_succ h')
      exact climb_alike_sum hany hsign hfactor

/-- Climbing reads a formula as the levels of the grammar do, however deep they look. -/
theorem parser_eq_nested {depth : Nat} {c : Cursor} (h : c.rest.length ≤ depth) :
    parser (S := S) c = nested depth c :=
  ((alike_levels (Nat.le_refl _) h).2.2 c (Nat.le_refl _)).1

end Formula

end TraceCalculus
