import TraceCalculus.Proofs.ErrorPlaces
import TraceCalculus.Proofs.Settings

/-! # Where a session points

What a session has to say about a line is said of a region of the line. A line may ask about an
expression (`AsksAbout`): all of it, or what follows a command, and for a differential also the
variable. Then that is what is read (`AsksAbout.command`, `exists_asksAbout`), an error in it is
reported where it is in the line, and a warning concerns the expression as a whole. Any other error
concerns the first word. So all regions lie in the line (`Session.diagnostics_placed`).
-/

set_option autoImplicit false

namespace TraceCalculus

open Text (IsGap IsWord EndsWord Frames Fragment Spells InBounds byteLength)

/-- The commands whose argument is an expression. -/
def plainCommands : List String := ["c", "tree"]

/-- The commands whose arguments are a variable and an expression. -/
def derivativeCommands : List String := ["d", "h", "tex"]

/-- The line asks about the expression `t`, and `before` stands in front of it. There are blanks
around an expression that do not belong to it. -/
inductive AsksAbout (line : String) : List Char → List Char → Prop
  | bare {gap t rest : List Char} : Frames gap t rest line.toList → t ≠ [] → t.head? ≠ some ':' →
      AsksAbout line gap t
  | plain {gap more space t rest : List Char} {name : String} : name ∈ plainCommands →
      line.toList = gap ++ ':' :: name.toList ++ more → IsGap gap → EndsWord more →
        Frames space t rest more → AsksAbout line (gap ++ ':' :: name.toList ++ space) t
  | derivative {gap gap' wrt more space t rest : List Char} {name : String} :
      name ∈ derivativeCommands →
        line.toList = gap ++ ':' :: name.toList ++ (gap' ++ wrt ++ more) → IsGap gap →
          IsGap gap' → gap' ≠ [] → IsWord wrt → EndsWord more → Frames space t rest more → t ≠ [] →
            AsksAbout line (gap ++ ':' :: name.toList ++ (gap' ++ wrt) ++ space) t

/-- The region of a text that stands behind another one. -/
def regionBehind (before t : List Char) : Span :=
  ⟨byteLength before, byteLength before + byteLength t⟩

variable {distance : String → String → Nat} {line name : String} {before t gap rest : List Char}

/-- An expression that is asked about stands in the line. -/
theorem AsksAbout.spells (h : AsksAbout line before t) :
    Spells line.toList (regionBehind before t) t := by
  have hrest : ∃ rest, line.toList = before ++ t ++ rest := by
    cases h with
    | @bare _ _ rest hframes => exact ⟨rest, hframes.eq⟩
    | @plain _ _ _ _ rest _ _ hline _ _ hframes => exact ⟨rest, by rw [hline, hframes.eq]; simp⟩
    | @derivative _ _ _ _ _ _ rest _ _ hline _ _ _ _ _ hframes =>
      exact ⟨rest, by rw [hline, hframes.eq]; simp⟩
  obtain ⟨rest, hline⟩ := hrest
  exact ⟨before, rest, hline, rfl, Text.byteLength_append before t⟩

namespace Command

/-- The part of the line that is to be read as an expression. -/
def source? : Command → Option Fragment
  | .echo source | .differentiate _ _ _ source | .canonicalize source | .tree source => some source
  | _ => none

variable {arguments source : Fragment} {command : Command}

theorem withArguments_of_plain (h : name ∈ plainCommands) (arguments : Fragment) :
    ∃ command, withArguments? name arguments = some command ∧
      command.source? = some arguments.trim := by
  simp only [plainCommands, List.mem_cons, List.not_mem_nil, or_false] at h
  rcases h with rfl | rfl
  · exact ⟨_, withArguments_eq_some.2 .canonicalize, rfl⟩
  · exact ⟨_, withArguments_eq_some.2 .tree, rfl⟩

theorem withArguments_of_derivative (h : name ∈ derivativeCommands) {wrt rest : Fragment}
    (hargs : Differentiates arguments wrt rest) :
    ∃ command, withArguments? name arguments = some command ∧ command.source? = some rest.trim := by
  simp only [derivativeCommands, List.mem_cons, List.not_mem_nil, or_false] at h
  rcases h with rfl | rfl | rfl
  · exact ⟨_, withArguments_eq_some.2 (.differential hargs), rfl⟩
  · exact ⟨_, withArguments_eq_some.2 (.hessian hargs), rfl⟩
  · exact ⟨_, withArguments_eq_some.2 (.latex hargs), rfl⟩

/-- Only these commands read an expression. -/
theorem source_of_withArguments (h : withArguments? name arguments = some command)
    (hsource : command.source? = some source) :
    name ∈ plainCommands ∧ source = arguments.trim ∨
      name ∈ derivativeCommands ∧ ∃ wrt rest, Differentiates arguments wrt rest ∧
        source = rest.trim := by
  cases withArguments_eq_some.1 h with
  | differential hargs | hessian hargs | latex hargs =>
    cases hsource
    exact .inr ⟨by simp [derivativeCommands], _, _, hargs, rfl⟩
  | canonicalize | tree =>
    cases hsource
    exact .inl ⟨by simp [plainCommands], rfl⟩
  | _ => cases hsource

theorem named_eq (hname : name ∈ plainCommands ++ derivativeCommands) (word : Span)
    (harguments : withArguments? name arguments = some command) :
    named distance name word arguments = .ok command := by
  have hknown : (usages.lookup name).isSome = true := by
    simp only [plainCommands, derivativeCommands, List.cons_append, List.nil_append, List.mem_cons,
      List.not_mem_nil, or_false] at hname
    rcases hname with rfl | rfl | rfl | rfl | rfl <;> rfl
  simp only [named, hknown, if_true, harguments]

theorem withArguments_of_named {word : Span}
    (h : named distance name word arguments = .ok command) :
    withArguments? name arguments = some command := by
  unfold named at h
  split at h
  case isFalse => cases h
  case isTrue =>
    split at h <;> cases h
    assumption

/-- The names of the commands are words. -/
theorem isWord_of_mem (hname : name ∈ plainCommands ++ derivativeCommands) :
    IsWord (':' :: name.toList) := by
  have hletters : ∀ c ∈ [':', 'c', 'd', 'e', 'h', 'r', 't', 'x'], Text.isBlank c = false := by
    simp [Text.isBlank, Text.blankRanges]
  refine ⟨by simp, fun c hc => hletters c ?_⟩
  simp only [plainCommands, derivativeCommands, List.cons_append, List.nil_append, List.mem_cons,
    List.not_mem_nil, or_false] at hname
  rcases hname with rfl | rfl | rfl | rfl | rfl <;> revert hc <;> simp <;> grind

end Command

open Command

theorem ofLine_of_named (hname : name ∈ plainCommands ++ derivativeCommands)
    (hline : line.toList = gap ++ ':' :: name.toList ++ rest) (hgap : IsGap gap)
    (hrest : EndsWord rest) {command : Command}
    (h : withArguments? name ⟨rest, byteLength (gap ++ ':' :: name.toList)⟩ = some command) :
    ofLine distance line = .ok command := by
  rw [ofLine_of_colon hline hgap (isWord_of_mem hname) hrest, String.ofList_toList]
  rw [Text.byteLength_append] at h
  exact named_eq hname _ h

/-- What the line asks about is what is to be read. -/
theorem AsksAbout.command (h : AsksAbout line before t) (distance : String → String → Nat) :
    ∃ command, ofLine distance line = .ok command ∧
      command.source? = some ⟨t, byteLength before⟩ := by
  cases h with
  | @bare _ _ rest hframes hne hcolon =>
    obtain ⟨w, more, rfl, hw, hmore⟩ := Text.exists_word hne hframes.starts
    have hhead : w.head? ≠ some ':' := by
      obtain ⟨c, w, rfl⟩ := List.exists_cons_of_ne_nil hw.1
      exact hcolon
    have hends : EndsWord (more ++ rest) := by
      cases more with
      | nil => exact hframes.behind.endsWord
      | cons c more => exact hmore
    have hline : line.toList = before ++ w ++ (more ++ rest) := by rw [hframes.eq]; simp
    refine ⟨_, ofLine_of_word hline hframes.before hw hends hhead, ?_⟩
    rw [source?, Fragment.trim_of_frames (f := .ofLine line) hframes]
    simp [Fragment.ofLine]
  | @plain gap more space _ rest name hname hline hgap hmore hframes =>
    obtain ⟨command, hcommand, hsource⟩ :=
      withArguments_of_plain hname ⟨more, byteLength (gap ++ ':' :: name.toList)⟩
    refine ⟨command, ofLine_of_named (List.mem_append_left _ hname) hline hgap hmore hcommand, ?_⟩
    rw [hsource, Fragment.trim_of_frames (f := ⟨more, _⟩) hframes, ← Text.byteLength_append]
  | @derivative gap gap' wrt more space _ rest name hname hline hgap hgap' hne' hwrt hmore hframes
      hne =>
    have hends : EndsWord (gap' ++ wrt ++ more) := by
      obtain ⟨c, gap', rfl⟩ := List.exists_cons_of_ne_nil hne'
      exact fun d hd => hgap' d (by cases hd; exact .head _)
    have hsplit := Fragment.splitWord?_of_word
      (f := ⟨gap' ++ wrt ++ more, byteLength (gap ++ ':' :: name.toList)⟩) rfl hgap' hwrt hmore
    have hblank : ∀ start, Fragment.isBlank ⟨more, start⟩ = false := by
      intro start
      refine Bool.eq_false_iff.2 fun hgap => ?_
      obtain ⟨c, t, rfl⟩ := List.exists_cons_of_ne_nil hne
      have hc := Fragment.isBlank_iff.1 hgap c (by simp [hframes.eq])
      rw [hframes.starts c rfl] at hc
      cases hc
    obtain ⟨command, hcommand, hsource⟩ := withArguments_of_derivative hname ⟨hsplit, hblank _⟩
    refine ⟨command, ofLine_of_named (List.mem_append_right _ hname) hline hgap hends hcommand, ?_⟩
    rw [hsource, Fragment.trim_of_frames (f := ⟨more, _⟩) hframes]
    simp only [← Text.byteLength_append, List.append_assoc]

/-- A line of which something is to be read asks about it. -/
theorem exists_asksAbout {command : Command} {source : Fragment}
    (h : ofLine distance line = .ok command) (hsource : command.source? = some source) :
    ∃ before t, AsksAbout line before t ∧ source = ⟨t, byteLength before⟩ := by
  rcases Text.isGap_or_exists_word line.toList with hgap | ⟨gap, w, rest, hline, hgap, hw, hrest⟩
  · rw [ofLine_of_isGap hgap] at h
    cases h
    cases hsource
  by_cases hcolon : w.head? = some ':'
  case neg =>
    obtain ⟨t, behind, hframes, hhead⟩ := Text.exists_frames_of_word hgap hw rest
    rw [← hline] at hframes
    have hne : t ≠ [] := fun ht => hw.1 (List.head?_eq_none_iff.1 (by rw [← hhead, ht]; rfl))
    refine ⟨gap, t, .bare hframes hne (hhead ▸ hcolon), ?_⟩
    rw [ofLine_of_word hline hgap hw hrest hcolon] at h
    cases h
    cases hsource
    rw [Fragment.trim_of_frames (f := .ofLine line) hframes]
    simp [Fragment.ofLine]
  case pos =>
    obtain ⟨cs, rfl⟩ := List.head?_eq_some_iff.1 hcolon
    obtain ⟨name, rfl⟩ : ∃ name : String, cs = name.toList := ⟨_, String.toList_ofList.symm⟩
    rw [ofLine_of_colon hline hgap hw hrest, String.ofList_toList] at h
    rcases source_of_withArguments (withArguments_of_named h) hsource with
      ⟨hname, rfl⟩ | ⟨hname, wrt, more, ⟨hsplit, hblank⟩, rfl⟩
    · obtain ⟨space, t, behind, hframes⟩ := Text.exists_frames rest
      refine ⟨_, t, .plain hname hline hgap hrest hframes, ?_⟩
      rw [Fragment.trim_of_frames (f := ⟨rest, _⟩) hframes]
      simp only [Text.byteLength_append]
    · rcases Text.isGap_or_exists_word rest with hgap' | ⟨gap', w, more', rfl, hgap', hw', hmore⟩
      · rw [Fragment.splitWord?_of_isGap hgap'] at hsplit
        cases hsplit
      rw [Fragment.splitWord?_of_word rfl hgap' hw' hmore] at hsplit
      cases hsplit
      obtain ⟨space, t, behind, hframes⟩ := Text.exists_frames more'
      have hne : t ≠ [] := by
        rintro rfl
        refine Bool.eq_false_iff.1 hblank (Fragment.isBlank_iff.2 ?_)
        have hspace := hframes.before
        rw [hframes.eq, hframes.empty rfl]
        simpa using hspace
      have hapart : gap' ≠ [] := by
        rintro rfl
        obtain ⟨c, w, rfl⟩ := List.exists_cons_of_ne_nil hw'.1
        have hc := hrest c rfl
        rw [hw'.2 c (.head _)] at hc
        cases hc
      refine ⟨_, t, .derivative hname hline hgap hgap' hapart hw' hmore hframes hne, ?_⟩
      rw [Fragment.trim_of_frames (f := ⟨more', _⟩) hframes]
      simp only [Text.byteLength_append, Nat.add_assoc]

/-- A line that is no command, though it starts with a colon, is refused for its first word. -/
theorem Command.ofLine_error {e : Located Fault} (h : ofLine distance line = .error e) :
    (∃ before w, e.spans = [regionBehind before w] ∧ Spells line.toList (regionBehind before w) w) ∧
      ∀ cause, e.cause ≠ .reading cause := by
  rcases Text.isGap_or_exists_word line.toList with hgap | ⟨gap, w, rest, hline, hgap, hw, hrest⟩
  · rw [ofLine_of_isGap hgap] at h
    cases h
  by_cases hcolon : w.head? = some ':'
  case neg =>
    rw [ofLine_of_word hline hgap hw hrest hcolon] at h
    cases h
  case pos =>
    obtain ⟨cs, rfl⟩ := List.head?_eq_some_iff.1 hcolon
    rw [ofLine_of_colon hline hgap hw hrest, named] at h
    refine ⟨⟨gap, ':' :: cs, ?_, ⟨gap, rest, hline, rfl, Text.byteLength_append ..⟩⟩, ?_⟩
    · split at h
      · split at h <;> cases h
        rfl
      · cases h
        rfl
    · split at h
      · split at h <;> cases h
        intro cause hcause
        cases hcause
      · cases h
        intro cause hcause
        cases hcause

/-- The warnings that a line is answered with. -/
def Reply.warnings {S : Type} : Reply S → List (Located (Warning S))
  | .answer output => output.warnings
  | _ => []

/-- The regions of a line that the reply to it points at. -/
def Reply.spans {S : Type} : Reply S → List Span
  | .refusal e => e.spans
  | reply => reply.warnings.flatMap (·.spans)

namespace Session

variable {S : Type} [Scalar S] {session : Session} {fuel : Nat} {source : Fragment}
  {command : Command}

/-- What is made of an expression is no refusal, and what there is to say of it concerns the region
that it was read from. -/
theorem canonicalize_concerns {warnings : List (Located (Warning S))}
    (h : ∀ w ∈ warnings, w.spans = [source.span]) (e : Expr S) (finish : Expr S → String) :
    (session.canonicalize fuel source e warnings finish).isRefusal = false ∧
      ∀ w ∈ (session.canonicalize fuel source e warnings finish).warnings,
        w.spans = [source.span] := by
  simp only [canonicalize]
  split
  · exact ⟨rfl, nofun⟩
  · exact ⟨rfl, h⟩
  · refine ⟨rfl, fun w hw => ?_⟩
    rcases List.mem_append.1 hw with hw | hw
    · exact h w hw
    · cases List.mem_singleton.1 hw
      rfl

/-- A command about an expression is refused as reading it is, with regions that count from where it
stands in the line, or else what there is to say concerns all of it. -/
theorem execute_of_source (session : Session) (fuel : Nat)
    (hsource : command.source? = some source) :
    (∃ e, Expr.read (S := S) session.declared source.text = .error e ∧
      (session.execute fuel command).1 =
        .refusal (S := S) ⟨.reading e.cause, e.spans.map (.shift source.start)⟩) ∨
    (∃ e, Expr.read (S := S) session.declared source.text = .ok e) ∧
      ((session.execute (S := S) fuel command).1).isRefusal = false ∧
      ∀ w ∈ ((session.execute (S := S) fuel command).1).warnings, w.spans = [source.span] := by
  have hwith : ∀ answer : Expr S → Reply S,
      (∀ e, (answer e).isRefusal = false ∧ ∀ w ∈ (answer e).warnings, w.spans = [source.span]) →
      (∃ e, Expr.read (S := S) session.declared source.text = .error e ∧
        session.withExpr source answer =
          .refusal ⟨.reading e.cause, e.spans.map (.shift source.start)⟩) ∨
      (∃ e, Expr.read (S := S) session.declared source.text = .ok e) ∧
        (session.withExpr source answer).isRefusal = false ∧
        ∀ w ∈ (session.withExpr source answer).warnings, w.spans = [source.span] := by
    intro answer hanswer
    unfold withExpr Session.read
    cases hread : Expr.read (S := S) session.declared source.text with
    | ok e => exact .inr ⟨⟨e, rfl⟩, hanswer e⟩
    | error e =>
      obtain ⟨s, hs, -⟩ := Expr.read_error_spans hread
      refine .inl ⟨e, rfl, ?_⟩
      simp only [Located.within, Located.mapCause, hs]
      rfl
  cases command with
  | idle | declare | steps | budget | help => cases hsource
  | echo | tree =>
    cases hsource
    exact hwith _ fun e => ⟨rfl, fun w hw => by cases hw⟩
  | canonicalize =>
    cases hsource
    exact hwith _ fun e => canonicalize_concerns (fun w hw => by cases hw) e _
  | differentiate =>
    cases hsource
    refine hwith _ fun e => canonicalize_concerns (fun w hw => ?_) _ _
    obtain ⟨note, -, rfl⟩ := List.mem_map.1 hw
    rfl

/-- Any other command has its answer, and no warning. -/
theorem execute_of_no_source (hsource : command.source? = none) :
    ∃ text, (session.execute (S := S) fuel command).1 = .answer { text } := by
  cases command with
  | echo | differentiate | canonicalize | tree => cases hsource
  | _ => exact ⟨_, rfl⟩

/-- A line is refused for its first word, or has its answer and no warning, or asks about an
expression. -/
theorem run_cases (session : Session) (fuel : Nat) (line : String) :
    (∃ e, (session.run (S := S) fuel line).1 = .refusal e ∧ (∃ before w,
        e.spans = [regionBehind before w] ∧ Spells line.toList (regionBehind before w) w) ∧
      ∀ cause, e.cause ≠ .reading cause) ∨
    (∃ text, (session.run (S := S) fuel line).1 = .answer { text }) ∨
    ∃ before t, AsksAbout line before t := by
  cases hcommand : ofLine session.declared.distance line with
  | error e => exact .inl ⟨e, by simp only [run, hcommand], ofLine_error hcommand⟩
  | ok command =>
    cases hsource : command.source? with
    | none =>
      refine .inr (.inl ?_)
      simp only [run, hcommand]
      exact execute_of_no_source hsource
    | some source =>
      obtain ⟨before, t, h, -⟩ := exists_asksAbout hcommand hsource
      exact .inr (.inr ⟨before, t, h⟩)

/-- What becomes of a line that asks about an expression. -/
theorem run_of_asksAbout (session : Session) (fuel : Nat) (h : AsksAbout line before t) :
    (∃ e, Expr.read (S := S) session.declared (String.ofList t) = .error e ∧
      (session.run fuel line).1 =
        .refusal (S := S) ⟨.reading e.cause, e.spans.map (.shift (byteLength before))⟩) ∨
    (∃ e, Expr.read (S := S) session.declared (String.ofList t) = .ok e) ∧
      ((session.run (S := S) fuel line).1).isRefusal = false ∧
      ∀ w ∈ ((session.run (S := S) fuel line).1).warnings, w.spans = [regionBehind before t] := by
  obtain ⟨command, hcommand, hsource⟩ := h.command session.declared.distance
  have hrun : session.run (S := S) fuel line = session.execute fuel command := by
    simp only [run, hcommand]
  have hreply := execute_of_source (S := S) session fuel hsource
  rw [Fragment.text, Fragment.span] at hreply
  rw [hrun]
  exact hreply

/-- What the reply to a line points at lies in the line. -/
theorem inBounds_of_mem_spans (session : Session) (fuel : Nat) (line : String) :
    ∀ s ∈ (session.run (S := S) fuel line).1.spans, InBounds line.toList s := by
  intro s hs
  rcases run_cases (S := S) session fuel line with
    ⟨e, hreply, ⟨before, w, hspans, hspells⟩, -⟩ | ⟨text, hreply⟩ | ⟨before, t, h⟩
  · rw [hreply, Reply.spans, hspans] at hs
    cases List.mem_singleton.1 hs
    exact hspells.inBounds
  · rw [hreply] at hs
    cases hs
  · rcases run_of_asksAbout (S := S) session fuel h with ⟨e, he, hreply⟩ | ⟨-, hanswer, hwarnings⟩
    · obtain ⟨before', rest, hline, hbefore, -⟩ := h.spells
      obtain ⟨s', hspans, hin⟩ := Expr.read_error_spans he
      rw [hreply, Reply.spans, hspans] at hs
      cases List.mem_singleton.1 hs
      rw [String.toList_ofList] at hin
      rw [hline, show byteLength before = byteLength before' from hbefore.symm]
      exact hin.shift
    · have hs : s ∈ (session.run (S := S) fuel line).1.warnings.flatMap (·.spans) := by
        cases hreply : (session.run (S := S) fuel line).1 with
        | refusal e =>
          rw [hreply] at hanswer
          cases hanswer
        | answer | outOfFuel => rwa [hreply] at hs
      obtain ⟨w, hw, hs⟩ := List.mem_flatMap.1 hs
      rw [hwarnings w hw] at hs
      cases List.mem_singleton.1 hs
      exact h.spells.inBounds

/-- Only a line that asks about an expression has a warning, or is refused for what is read. -/
theorem exists_asksAbout_of_run
    (h : (session.run (S := S) fuel line).1.warnings ≠ [] ∨
      ∃ cause spans, (session.run (S := S) fuel line).1 = .refusal ⟨.reading cause, spans⟩) :
    ∃ before t, AsksAbout line before t := by
  rcases run_cases (S := S) session fuel line with
    ⟨⟨fault, spans⟩, hreply, -, hcause⟩ | ⟨text, hreply⟩ | hasks
  · rw [hreply] at h
    rcases h with hne | ⟨cause, spans', heq⟩
    · exact absurd rfl hne
    · cases heq
      exact absurd rfl (hcause cause)
  · rw [hreply] at h
    rcases h with hne | ⟨cause, spans', heq⟩
    · exact absurd rfl hne
    · cases heq
  · exact hasks

/-- What is said of a line is said of regions of it. An expression that the line asks about stands
where it is taken to stand. If it cannot be read the reply says why, and where that is in the line,
and any warning concerns the expression. No other line has a warning, or is refused for what is
read. -/
theorem diagnostics_placed (session : Session) (fuel : Nat) (line : String) :
    (∀ s ∈ (session.run (S := S) fuel line).1.spans, InBounds line.toList s) ∧
    (∀ before t, AsksAbout line before t →
      Spells line.toList (regionBehind before t) t ∧
      (∀ e, Expr.read (S := S) session.declared (String.ofList t) = .error e →
        (session.run (S := S) fuel line).1 =
          .refusal ⟨.reading e.cause, e.spans.map (.shift (byteLength before))⟩) ∧
      ∀ w ∈ (session.run (S := S) fuel line).1.warnings, w.spans = [regionBehind before t]) ∧
    ((session.run (S := S) fuel line).1.warnings ≠ [] ∨
        (∃ cause spans, (session.run (S := S) fuel line).1 = .refusal ⟨.reading cause, spans⟩) →
      ∃ before t, AsksAbout line before t) := by
  refine ⟨inBounds_of_mem_spans session fuel line,
    fun before t h => ⟨h.spells, fun e he => ?_, fun w hw => ?_⟩, exists_asksAbout_of_run⟩
  · rcases run_of_asksAbout (S := S) session fuel h with ⟨e', he', hreply⟩ | ⟨⟨e', he'⟩, -⟩
    · rw [he] at he'
      cases he'
      exact hreply
    · rw [he] at he'
      cases he'
  · rcases run_of_asksAbout (S := S) session fuel h with ⟨e, -, hreply⟩ | ⟨-, -, hwarnings⟩
    · rw [hreply] at hw
      cases hw
    · exact hwarnings w hw

/-- A line with blanks of several bytes, and a character where an operand is wanted. -/
def spacedLine : String := "\u2003:d  X\u00a0\u2003A*Σ\u3000"

theorem diagnostics_placed_spacedLine :
    (({} : Session).run (S := Int) 5 spacedLine).1 =
      .refusal ⟨.reading (.parse (.unexpectedToken .symbol)), [⟨15, 17⟩]⟩ := by
  have hasks : AsksAbout spacedLine "\u2003:d  X\u00a0\u2003".toList "A*Σ".toList := by
    refine @AsksAbout.derivative _ ['\u2003'] [' ', ' '] ['X'] "\u00a0\u2003A*Σ\u3000".toList
      ['\u00a0', '\u2003'] _ ['\u3000'] "d" (by decide) (by decide) ?_ ?_ (by decide) ?_ ?_ ?_
      (by decide)
    case refine_5 =>
      constructor <;> simp [IsGap, Text.isBlank, Text.blankRanges]
    all_goals simp [IsGap, IsWord, EndsWord, Text.isBlank, Text.blankRanges]
  exact ((diagnostics_placed (S := Int) {} 5 spacedLine).2.1 _ _ hasks).2.1
    ⟨.parse (.unexpectedToken .symbol), [⟨2, 4⟩]⟩ (by decide +kernel)

end Session

end TraceCalculus
