import TraceCalculus.Proofs.ExactScalar
import TraceCalculus.Proofs.LineWords
import TraceCalculus.Proofs.NameSets
import TraceCalculus.Session.Script

/-! # What a line leaves behind

Only `:scalar`, `:steps` and `:budget` change what a session keeps between lines, and a line that is
refused changes nothing (`Session.run_refusal`). So a line that is refused, or is none of these
commands, can be left out of a session without any other answer being different
(`Session.transcript_pick`).

The names declared are those of the `:scalar` lines that were answered
(`Session.mem_scalars_after`). They are kept in order and each once, and so neither the order of the
lines nor a repetition can be told from them.
-/

set_option autoImplicit false

namespace TraceCalculus

open Text (IsGap IsWord EndsWord Fragment)

/-- The words of a line. -/
def lineWords (line : String) : List String := (Text.words line.toList).map String.ofList

/-- The commands that change what is kept between lines. -/
def settingCommands : List String := [":scalar", ":steps", ":budget"]

/-- Whether the line is a command that changes what is kept between lines. -/
def isSettingLine (line : String) : Bool := (lineWords line).head?.any (· ∈ settingCommands)

/-- The names in a `:scalar` line. -/
def namesDeclared (line : String) : List String :=
  if (lineWords line).head? = some ":scalar" then (lineWords line).tail else []

/-- Whether the line was refused. -/
def Reply.isRefusal {S : Type} : Reply S → Bool
  | .refusal _ => true
  | _ => false

namespace Command

/-- Whether carrying the command out changes what is kept between lines. -/
def isSetting : Command → Bool
  | .declare _ | .steps _ | .budget _ => true
  | _ => false

/-- The names that carrying the command out declares. -/
def declared : Command → List String
  | .declare names => names
  | _ => []

/-- What the arguments of a differential must be: a variable, and an expression that is not blank. -/
def Differentiates (arguments wrt source : Fragment) : Prop :=
  arguments.splitWord? = some (wrt, source) ∧ source.isBlank = false

/-- `:name` with these arguments calls for the command. -/
inductive Calls (arguments : Fragment) : String → Command → Prop
  | differential {wrt source : Fragment} (h : Differentiates arguments wrt source) :
    Calls arguments "d" (.differentiate .first false wrt.text source.trim)
  | hessian {wrt source : Fragment} (h : Differentiates arguments wrt source) :
    Calls arguments "h" (.differentiate .second false wrt.text source.trim)
  | latex {wrt source : Fragment} (h : Differentiates arguments wrt source) :
    Calls arguments "tex" (.differentiate .first true wrt.text source.trim)
  | canonicalize : Calls arguments "c" (.canonicalize arguments.trim)
  | tree : Calls arguments "tree" (.tree arguments.trim)
  | declare (h : Text.words arguments.chars ≠ []) :
    Calls arguments "scalar" (.declare ((Text.words arguments.chars).map String.ofList))
  | stepsOn (h : Text.trim arguments.chars = "on".toList) : Calls arguments "steps" (.steps true)
  | stepsOff (h : Text.trim arguments.chars = "off".toList) : Calls arguments "steps" (.steps false)
  | budgetOff (h : Text.trim arguments.chars = "off".toList) :
    Calls arguments "budget" (.budget none)
  | budget {limit : Nat} (h : number? (Text.trim arguments.chars) = some limit) :
    Calls arguments "budget" (.budget (some limit))
  | help : Calls arguments "help" .help

variable {distance : String → String → Nat} {line name : String} {gap rest cs : List Char}
  {command : Command} {arguments : Fragment}

theorem differential_eq_some {order : DiffOrder} {latex : Bool} :
    withArguments?.differential? arguments order latex = some command ↔
      ∃ wrt source, Differentiates arguments wrt source ∧
        command = .differentiate order latex wrt.text source.trim := by
  unfold withArguments?.differential?
  constructor
  · intro h
    split at h
    case h_1 => cases h
    case h_2 wrt source hsplit =>
      split at h <;> cases h
      rename_i hblank
      exact ⟨wrt, source, ⟨hsplit, Bool.eq_false_of_not_eq_true hblank⟩, rfl⟩
  · rintro ⟨wrt, source, ⟨hsplit, hblank⟩, rfl⟩
    simp [hsplit, hblank]

/-- All that is known of a command with arguments. -/
theorem withArguments_eq_some :
    withArguments? name arguments = some command ↔ Calls arguments name command := by
  constructor
  · intro h
    unfold withArguments? at h
    split at h
    case h_1 =>
      obtain ⟨wrt, source, hargs, rfl⟩ := differential_eq_some.1 h
      exact .differential hargs
    case h_2 =>
      obtain ⟨wrt, source, hargs, rfl⟩ := differential_eq_some.1 h
      exact .hessian hargs
    case h_3 =>
      obtain ⟨wrt, source, hargs, rfl⟩ := differential_eq_some.1 h
      exact .latex hargs
    case h_4 =>
      cases h
      exact .canonicalize
    case h_5 =>
      cases h
      exact .tree
    case h_6 =>
      split at h <;> cases h
      exact .declare ‹_›
    case h_7 =>
      dsimp only at h
      split at h
      case isTrue hon =>
        cases h
        exact .stepsOn hon
      case isFalse =>
        split at h <;> cases h
        exact .stepsOff ‹_›
    case h_8 =>
      dsimp only at h
      split at h
      case isTrue hoff =>
        cases h
        exact .budgetOff hoff
      case isFalse =>
        obtain ⟨limit, hlimit, rfl⟩ := Option.map_eq_some_iff.1 h
        exact .budget hlimit
    case h_9 =>
      cases h
      exact .help
    case h_10 => cases h
  · intro h
    cases h with
    | differential h | hessian h | latex h => exact differential_eq_some.2 ⟨_, _, h, rfl⟩
    | canonicalize | tree | help => rfl
    | declare h =>
      obtain ⟨w, ws, hwords⟩ := List.exists_cons_of_ne_nil h
      simp only [withArguments?, hwords]
    | stepsOn h => exact if_pos h
    | stepsOff h =>
      have hon : Text.trim arguments.chars ≠ "on".toList := by simp [h]
      exact (if_neg hon).trans (if_pos h)
    | budgetOff h => exact if_pos h
    | @budget limit h =>
      have hoff : Text.trim arguments.chars ≠ "off".toList := by
        intro hoff
        rw [hoff] at h
        cases h
      exact (if_neg hoff).trans (congrArg (Option.map _) h)

theorem isSetting_of_withArguments (h : withArguments? name arguments = some command) :
    (command.isSetting = true → name = "scalar" ∨ name = "steps" ∨ name = "budget") ∧
      command.declared = if name = "scalar" then (Text.words arguments.chars).map String.ofList
        else [] := by
  cases withArguments_eq_some.1 h <;> simp [isSetting, declared]

/-! ## What a line asks for -/

theorem ofLine_of_isGap (h : IsGap line.toList) : ofLine distance line = .ok .idle := by
  rw [ofLine, Fragment.splitWord?_of_isGap (f := .ofLine line) h]

/-- A line that starts with a colon is a command. -/
theorem ofLine_of_colon (h : line.toList = gap ++ ':' :: cs ++ rest) (hgap : IsGap gap)
    (hcs : IsWord (':' :: cs)) (hrest : EndsWord rest) :
    ofLine distance line = named distance (String.ofList cs)
      ⟨Text.byteLength gap, Text.byteLength gap + Text.byteLength (':' :: cs)⟩
      ⟨rest, Text.byteLength gap + Text.byteLength (':' :: cs)⟩ := by
  have hsplit := Fragment.splitWord?_of_word (f := .ofLine line) h hgap hcs hrest
  simp only [ofLine, hsplit]
  simp [Fragment.ofLine, Fragment.span]

/-- Any other line is an expression. -/
theorem ofLine_of_word {w : List Char} (h : line.toList = gap ++ w ++ rest) (hgap : IsGap gap)
    (hw : IsWord w) (hrest : EndsWord rest) (hcolon : w.head? ≠ some ':') :
    ofLine distance line = .ok (.echo (Fragment.ofLine line).trim) := by
  have hsplit := Fragment.splitWord?_of_word (f := .ofLine line) h hgap hw hrest
  simp only [ofLine, hsplit]
  split
  case h_1 => exact absurd rfl hcolon
  case h_2 => rfl

theorem lineWords_of_word {w : List Char} (h : line.toList = gap ++ w ++ rest) (hgap : IsGap gap)
    (hw : IsWord w) (hrest : EndsWord rest) :
    lineWords line = String.ofList w :: (Text.words rest).map String.ofList := by
  rw [lineWords, h, Text.words_of_word hgap hw hrest, List.map_cons]

/-- Only the lines that name a setting ask for one, and only `:scalar` declares the names in it. -/
theorem isSetting_of_ofLine (h : ofLine distance line = .ok command) :
    (command.isSetting = true → isSettingLine line = true) ∧
      command.declared = namesDeclared line := by
  rcases Text.isGap_or_exists_word line.toList with hgap | ⟨gap, w, rest, hline, hgap, hw, hrest⟩
  · rw [ofLine_of_isGap hgap] at h
    cases h
    refine ⟨nofun, ?_⟩
    simp [declared, namesDeclared, lineWords, Text.words_of_isGap hgap]
  · have hwords := lineWords_of_word hline hgap hw hrest
    by_cases hcolon : w.head? = some ':'
    · obtain ⟨cs, rfl⟩ := List.head?_eq_some_iff.1 hcolon
      have hname : ∀ name : String, String.ofList (':' :: cs) = ":" ++ name ↔
          String.ofList cs = name := by
        intro name
        simp [← String.toList_inj]
      rw [ofLine_of_colon hline hgap hw hrest, named] at h
      split at h
      case isFalse => cases h
      case isTrue =>
        split at h <;> cases h
        rename_i harguments
        obtain ⟨hsetting, hdeclared⟩ := isSetting_of_withArguments harguments
        refine ⟨fun hs => ?_, ?_⟩
        · simp only [isSettingLine, hwords, List.head?_cons, Option.any_some, settingCommands,
            List.mem_cons, List.not_mem_nil, or_false, decide_eq_true_eq]
          exact (hsetting hs).imp (hname "scalar").2 (.imp (hname "steps").2 (hname "budget").2)
        · simp only [hdeclared, namesDeclared, hwords, List.head?_cons, Option.some.injEq,
            List.tail_cons]
          exact if_congr (hname "scalar").symm rfl rfl
    · rw [ofLine_of_word hline hgap hw hrest hcolon] at h
      cases h
      refine ⟨nofun, ?_⟩
      have hne : String.ofList w ≠ ":scalar" := by
        intro heq
        rw [← String.toList_inj, String.toList_ofList] at heq
        exact hcolon (congrArg List.head? heq)
      simp [declared, namesDeclared, hwords, hne]

end Command

namespace Session

variable {S : Type} [Scalar S] {session : Session} {fuel : Nat} {line name : String}
  {command : Command}

/-- Carrying out a command that is no setting keeps the session. A setting is always answered. -/
theorem execute_eq (session : Session) (fuel : Nat) (command : Command) :
    command.isSetting = false ∧ (session.execute (S := S) fuel command).2 = session ∧
        command.declared = [] ∨
      command.isSetting = true ∧ ((session.execute (S := S) fuel command).1).isRefusal = false ∧
        (session.execute (S := S) fuel command).2.declared =
          command.declared.foldl Declarations.declare session.declared := by
  cases command with
  | declare | steps | budget => exact .inr ⟨rfl, rfl, rfl⟩
  | _ => exact .inl ⟨rfl, rfl, rfl⟩

/-- A line that is refused leaves the session as it is. -/
theorem run_refusal (h : (session.run (S := S) fuel line).1.isRefusal = true) :
    (session.run (S := S) fuel line).2 = session := by
  unfold run at h ⊢
  split
  case h_2 => rfl
  case h_1 command hcommand =>
    rw [hcommand] at h
    rcases execute_eq (S := S) session fuel command with ⟨-, hkept, -⟩ | ⟨-, hanswer, -⟩
    · exact hkept
    · rw [hanswer] at h
      cases h

/-- So does a line that is no setting. -/
theorem run_of_not_setting (h : isSettingLine line = false) :
    (session.run (S := S) fuel line).2 = session := by
  unfold run
  split
  case h_2 => rfl
  case h_1 command hcommand =>
    rcases execute_eq (S := S) session fuel command with ⟨-, hkept, -⟩ | ⟨hsetting, -⟩
    · exact hkept
    · rw [(Command.isSetting_of_ofLine hcommand).1 hsetting] at h
      cases h

/-- A line that is answered declares the names in it. -/
theorem declared_run (h : (session.run (S := S) fuel line).1.isRefusal = false) :
    (session.run (S := S) fuel line).2.declared =
      (namesDeclared line).foldl Declarations.declare session.declared := by
  unfold run at h ⊢
  split
  case h_2 e he =>
    rw [he] at h
    cases h
  case h_1 command hcommand =>
    rw [← (Command.isSetting_of_ofLine hcommand).2]
    rcases execute_eq (S := S) session fuel command with ⟨-, hkept, hnone⟩ | ⟨-, -, hdeclared⟩
    · rw [hkept, hnone, List.foldl_nil]
    · exact hdeclared

/-! ## Whole sessions -/

/-- The session after some lines. -/
def after (S : Type) [Scalar S] (session : Session) (fuel : Nat) : List String → Session
  | [] => session
  | line :: rest => after S (session.run (S := S) fuel line).2 fuel rest

/-- The lines with the answers to them. -/
def transcript (S : Type) [Scalar S] (session : Session) (fuel : Nat) (lines : List String) :
    List (String × Reply S) :=
  lines.zip (session.runAll fuel lines)

theorem transcript_cons (lines : List String) :
    session.transcript S fuel (line :: lines) = (line, (session.run fuel line).1) ::
      (session.run (S := S) fuel line).2.transcript S fuel lines := rfl

/-- The entries that are marked so. -/
def pick {α : Type} (mark : Bool) : List Bool → List α → List α
  | m :: marks, a :: as => if m = mark then a :: pick mark marks as else pick mark marks as
  | _, _ => []

/-- Lines that are refused, or are no settings, can be left out. -/
theorem transcript_pick {marks : List Bool} {lines : List String}
    (h : ∀ p ∈ pick false marks (session.transcript S fuel lines),
      p.2.isRefusal = true ∨ isSettingLine p.1 = false) :
    session.transcript S fuel (pick true marks lines) =
      pick true marks (session.transcript S fuel lines) := by
  induction lines generalizing session marks with
  | nil => cases marks <;> rfl
  | cons line lines ih =>
    cases marks with
    | nil => rfl
    | cons mark marks =>
      rw [transcript_cons] at h ⊢
      cases mark with
      | true =>
        simp only [pick, if_true, transcript_cons, List.cons.injEq, true_and]
        exact ih h
      | false =>
        obtain ⟨hline, hrest⟩ := List.forall_mem_cons.1 h
        have hkept : (session.run (S := S) fuel line).2 = session := by
          rcases hline with hrefused | hnone
          · exact run_refusal hrefused
          · exact run_of_not_setting hnone
        rw [hkept] at hrest ⊢
        exact ih hrest

/-- Some line that declares the name was answered. -/
def Declares (S : Type) [Scalar S] (session : Session) (fuel : Nat) (lines : List String)
    (name : String) : Prop :=
  ∃ p ∈ session.transcript S fuel lines, p.2.isRefusal = false ∧ name ∈ namesDeclared p.1

theorem mem_foldl_declare {names : List String} {declared : Declarations} :
    name ∈ (names.foldl Declarations.declare declared).scalars ↔
      name ∈ declared.scalars ∨ name ∈ names := by
  induction names generalizing declared with
  | nil => simp
  | cons other names ih =>
    rw [List.foldl_cons, ih, Declarations.declare, Text.Names.mem_insert, List.mem_cons]
    grind

theorem distance_foldl_declare {names : List String} {declared : Declarations} :
    (names.foldl Declarations.declare declared).distance = declared.distance := by
  induction names generalizing declared with
  | nil => rfl
  | cons name names ih => exact ih

/-- A name is declared after some lines if it was before or one of them has declared it. -/
theorem mem_scalars_after {lines : List String} :
    name ∈ (session.after S fuel lines).declared.scalars ↔
      name ∈ session.declared.scalars ∨ session.Declares S fuel lines name := by
  induction lines generalizing session with
  | nil => simp [after, Declares, transcript]
  | cons line lines ih =>
    rw [after, ih, Declares, Declares, transcript_cons, List.exists_mem_cons_iff, ← or_assoc]
    refine or_congr_left ?_
    cases h : (session.run (S := S) fuel line).1.isRefusal with
    | true => simp [run_refusal h]
    | false => rw [declared_run h, mem_foldl_declare]; simp

/-- How far apart names are stays. -/
theorem distance_after {lines : List String} :
    (session.after S fuel lines).declared.distance = session.declared.distance := by
  induction lines generalizing session with
  | nil => rfl
  | cons line lines ih =>
    rw [after, ih]
    cases h : (session.run (S := S) fuel line).1.isRefusal with
    | true => rw [run_refusal h]
    | false => rw [declared_run h, distance_foldl_declare]

/-- A line that is refused changes nothing. Lines that are refused or are no settings can be left
out of a session without another answer being different. And the names declared are those that the
answered `:scalar` lines have between them. -/
theorem lines_isolated (session : Session) (fuel : Nat) :
    (∀ line, (session.run (S := S) fuel line).1.isRefusal = true →
      (session.run (S := S) fuel line).2 = session) ∧
    (∀ marks lines, (∀ p ∈ pick false marks (session.transcript S fuel lines),
        p.2.isRefusal = true ∨ isSettingLine p.1 = false) →
      session.transcript S fuel (pick true marks lines) =
        pick true marks (session.transcript S fuel lines)) ∧
    (∀ lines name, name ∈ (session.after S fuel lines).declared.scalars ↔
      name ∈ session.declared.scalars ∨ session.Declares S fuel lines name) ∧
    ∀ lines lines',
      (∀ name, session.Declares S fuel lines name ↔ session.Declares S fuel lines' name) →
        (session.after S fuel lines).declared = (session.after S fuel lines').declared := by
  refine ⟨fun _ => run_refusal, fun _ _ => transcript_pick, fun _ _ => mem_scalars_after,
    fun lines lines' hnames => Declarations.ext ?_ ?_⟩
  · refine Text.Names.eq_of_mem_iff fun name => ?_
    rw [mem_scalars_after, mem_scalars_after, hnames]
  · rw [distance_after, distance_after]

/-- Lines of which some are refused, and some only show something. -/
def mixedLines : List String :=
  [":scalar b a", ":steps maybe", "a*X", ":scalar", ":budget -1", "  :scalar a", ":steps on",
    ":c Tr(X*a)"]

theorem lines_isolated_mixedLines :
    ({} : Session).transcript Int 30 [":scalar b a", "  :scalar a", ":steps on", ":c Tr(X*a)"] =
        pick true [true, false, false, false, false, true, true, true]
          (({} : Session).transcript Int 30 mixedLines) ∧
      (({} : Session).after Int 30 mixedLines).declared =
        (({} : Session).after Int 30 [":scalar a b a", ":scalar"]).declared := by
  obtain ⟨-, hpick, hmem, hdeclared⟩ := lines_isolated (S := Int) {} 30
  refine ⟨hpick [true, false, false, false, false, true, true, true] mixedLines
    (by decide +kernel), hdeclared _ _ fun name => ?_⟩
  have hnames : (({} : Session).after Int 30 mixedLines).declared.scalars =
      (({} : Session).after Int 30 [":scalar a b a", ":scalar"]).declared.scalars := by
    decide +kernel
  have hfirst := hmem mixedLines name
  have hsecond := hmem [":scalar a b a", ":scalar"] name
  rw [hnames] at hfirst
  have hnone : name ∉ ({} : Session).declared.scalars := nofun
  simpa [hnone] using hfirst.symm.trans hsecond

end Session

end TraceCalculus
