import TraceCalculus.Expr.Basic

/-! # Matching an expression against a pattern

A pattern is an expression whose variables are holes. A matrix variable takes any expression and a
scalar variable any scalar. A differential asks that a differential occurs somewhere in what it
faces, and its inner pattern is then matched against that same expression. All other nodes match
nodes of their own kind. A variable that occurs twice must take the same expression both times.
-/

set_option autoImplicit false

namespace TraceCalculus

/-- What the variables of a pattern have taken, the latest first. -/
abbrev Assignment (S : Type) := List (String × Expr S)

/-- The causes for which a pattern does not match. -/
inductive MatchFailure where
  /-- A variable would have to take two different expressions. -/
  | inconsistent (name : String)
  /-- The shapes differ. -/
  | mismatch
  /-- A scalar variable faces what is not a scalar. -/
  | notScalar (name : String)
  /-- A differential faces an expression without one. -/
  | noDifferential
  deriving DecidableEq

namespace Assignment

variable {S : Type}

/-- What a variable has taken. -/
def get? (σ : Assignment S) (name : String) : Option (Expr S) := σ.lookup name

/-- Lets a variable take an expression. -/
def assign [Scalar S] (σ : Assignment S) (name : String) (e : Expr S) :
    Except MatchFailure (Assignment S) :=
  match σ.get? name with
  | none => .ok ((name, e) :: σ)
  | some taken => if taken == e then .ok σ else .error (.inconsistent name)

end Assignment

namespace Expr

variable {S : Type}

/-- Matches an expression against a pattern whose variables have already taken `σ`. -/
def matchFrom [Scalar S] (pattern e : Expr S) (σ : Assignment S) :
    Except MatchFailure (Assignment S) :=
  match pattern, e with
  | .var name, e => σ.assign name e
  | .scalarVar name, e => if e.isScalar then σ.assign name e else .error (.notScalar name)
  | .differential inner, e =>
    if e.hasDifferential then inner.matchFrom e σ else .error .noDifferential
  | .literal a, .literal b => if a == b then .ok σ else .error .mismatch
  | .null, .null => .ok σ
  | .trace p, .trace e => p.matchFrom e σ
  | .transpose p, .transpose e => p.matchFrom e σ
  | .add p q, .add a b => do q.matchFrom b (← p.matchFrom a σ)
  | .sub p q, .sub a b => do q.matchFrom b (← p.matchFrom a σ)
  | .scale p q, .scale a b => do q.matchFrom b (← p.matchFrom a σ)
  | .matMul p q, .matMul a b => do q.matchFrom b (← p.matchFrom a σ)
  | _, _ => .error .mismatch

/-- Matches an expression against a pattern. -/
def matchAgainst [Scalar S] (e pattern : Expr S) : Except MatchFailure (Assignment S) :=
  pattern.matchFrom e []

end Expr

end TraceCalculus
