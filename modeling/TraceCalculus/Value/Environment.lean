import TraceCalculus.Text.Distance
import TraceCalculus.Text.Names
import TraceCalculus.Value.Basic

/-! # Environments

An environment holds the values of variables, and says how differentials are evaluated.
-/

set_option autoImplicit false

namespace TraceCalculus

/-- How differentials are evaluated. -/
inductive Environment.Mode where
  /-- A differential is a variable that has the text of the differential for its name. -/
  | value
  /-- The differential of `wrt` is an identity matrix, and a trace is its operand. The term
  `Tr(G*d(X))` then evaluates to `G`. -/
  | gradient (wrt : String)
  deriving DecidableEq

/-- The values of variables. -/
structure Environment (S : Type) where
  values : List (String × Value S) := []
  mode : Environment.Mode := .value
  /-- How far apart two names are. -/
  distance : String → String → Nat := Text.distance

namespace Environment

variable {S : Type}

/-- The value of a variable. -/
def get? (env : Environment S) (name : String) : Option (Value S) := env.values.lookup name

/-- Gives a variable a value, in place of the one it may have. -/
def set (env : Environment S) (name : String) (value : Value S) : Environment S :=
  { env with values := (name, value) :: env.values.filter (·.1 ≠ name) }

/-- The same values in another mode. -/
def withMode (env : Environment S) (mode : Mode) : Environment S := { env with mode }

/-- The variables that have a value, in order. -/
def names (env : Environment S) : List String := (Text.Names.ofList (env.values.map (·.1))).toList

/-- The variables whose names the given one resembles. -/
def similarNames (env : Environment S) (name : String) : List String :=
  Text.resembling env.distance env.names name

/-- The value of a variable that has to have one. -/
def lookup (env : Environment S) (name : String) : Except EvalError (Value S) :=
  match env.get? name with
  | some value => .ok value
  | none => .error (.undefinedVariable name (env.similarNames name))

/-- The value of a variable just given one. -/
@[simp] theorem get?_set_self (env : Environment S) (name : String) (value : Value S) :
    (env.set name value).get? name = some value := by
  simp [get?, set]

theorem get?_set_of_ne (env : Environment S) {name other : String} (value : Value S)
    (h : other ≠ name) : (env.set name value).get? other = env.get? other := by
  have hother : (other == name) = false := beq_eq_false_iff_ne.2 h
  have hfilter : ∀ l : List (String × Value S),
      (l.filter (·.1 ≠ name)).lookup other = l.lookup other := by
    intro l
    induction l with
    | nil => rfl
    | cons entry l ih =>
      obtain ⟨key, v⟩ := entry
      by_cases he : key = name
      · subst he
        rw [List.filter_cons_of_neg (by simp), ih, List.lookup_cons, hother]
      · rw [List.filter_cons_of_pos (by simpa using he), List.lookup_cons, List.lookup_cons, ih]
  rw [get?, set, List.lookup_cons, hother]
  exact hfilter env.values

end Environment

end TraceCalculus
