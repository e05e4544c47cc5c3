import TraceCalculus.Pattern.Rule

/-! # The rules of canonicalization

The differential of a scalar function of a matrix `X` is a sum of terms `Tr(G*d(X))`, and `G'` is
then its gradient. The rules bring an expression to that form in three stages, each of which has
the rules of the stages before it:

* `isolate` moves differentials to the right of products and out of sums;
* `normalize` associates products to the left and moves transposes to the leaves;
* `collect` joins traces that share a differential.

Every rule is an identity. Those about traces rest on the trace being invariant under transposition
and under cyclic permutation of a product.
-/

set_option autoImplicit false

namespace TraceCalculus

/-- The stages, in the order they run. -/
inductive Stage where
  | isolate
  | normalize
  | collect
  deriving DecidableEq

namespace Stage

/-- All stages, in the order they run. -/
def all : List Stage := [.isolate, .normalize, .collect]

/-- What a stage is called. -/
def label : Stage → String
  | .isolate => "isolate"
  | .normalize => "normalize"
  | .collect => "collect"

variable {S : Type}

/-! The variables of the rules: three matrices and two scalars. -/

namespace Letter

abbrev A : Expr S := .var "A"
abbrev B : Expr S := .var "B"
abbrev C : Expr S := .var "C"
abbrev s : Expr S := .scalarVar "s"
abbrev u : Expr S := .scalarVar "u"

end Letter

open Letter
open TraceCalculus.Expr (add sub scale matMul trace transpose differential)

/-- Rules that move differentials to the right and outward. -/
def isolating : List (Rule S) :=
  [ -- a product in a trace may be rotated
    ⟨trace (matMul (differential A) B), trace (matMul B A)⟩,
    -- the trace is linear
    ⟨trace (differential (add A B)), add (trace A) (trace B)⟩,
    ⟨trace (differential (sub A B)), sub (trace A) (trace B)⟩,
    -- a matrix and its transpose have one trace
    ⟨trace (matMul A (transpose (differential B))), trace (matMul (transpose A) B)⟩,
    ⟨trace (transpose (differential A)), trace A⟩,
    -- products distribute over sums that have a differential
    ⟨matMul (differential (add A B)) C, add (matMul A C) (matMul B C)⟩,
    ⟨matMul A (differential (add B C)), add (matMul A B) (matMul A C)⟩,
    ⟨matMul (differential (sub A B)) C, sub (matMul A C) (matMul B C)⟩,
    ⟨matMul A (differential (sub B C)), sub (matMul A B) (matMul A C)⟩,
    -- a differential on the right comes up to the top product
    ⟨trace (matMul A (differential (matMul B C))), trace (matMul (matMul A B) C)⟩,
    -- transposes move down toward a differential
    ⟨transpose (differential (matMul A B)), matMul (transpose B) (transpose A)⟩,
    ⟨transpose (differential (add A B)), add (transpose A) (transpose B)⟩,
    ⟨transpose (differential (sub A B)), sub (transpose A) (transpose B)⟩,
    -- scalars leave transposes and traces
    ⟨transpose (scale s A), scale s (transpose A)⟩,
    ⟨trace (scale s A), scale s (trace A)⟩ ]

/-- Rules that associate products to the left and move transposes to the leaves. -/
def normalizing : List (Rule S) :=
  [ ⟨matMul A (matMul B C), matMul (matMul A B) C⟩,
    ⟨transpose (matMul A B), matMul (transpose B) (transpose A)⟩,
    ⟨transpose (add A B), add (transpose A) (transpose B)⟩,
    ⟨transpose (sub A B), sub (transpose A) (transpose B)⟩,
    ⟨trace (transpose A), trace A⟩ ]

/-- The trace of a product that ends in a differential `C`. -/
abbrev term (g : Expr S) : Expr S := trace (matMul g (differential C))

/-- What terms with the differential `C` are collected to. -/
abbrev collected (g : Expr S) : Expr S := trace (matMul g C)

/-- Rules that join traces sharing a differential, and split traces of sums so that equal traces
can meet in one sum. -/
def collecting : List (Rule S) :=
  [ ⟨add (term A) (term B), collected (add A B)⟩,
    ⟨sub (term A) (term B), collected (sub A B)⟩,
    ⟨add (scale s (term A)) (term B), collected (add (scale s A) B)⟩,
    ⟨add (term A) (scale s (term B)), collected (add A (scale s B))⟩,
    ⟨add (scale s (term A)) (scale u (term B)), collected (add (scale s A) (scale u B))⟩,
    ⟨sub (scale s (term A)) (term B), collected (sub (scale s A) B)⟩,
    ⟨sub (term A) (scale s (term B)), collected (sub A (scale s B))⟩,
    ⟨sub (scale s (term A)) (scale u (term B)), collected (sub (scale s A) (scale u B))⟩,
    ⟨trace (add A B), add (trace A) (trace B)⟩,
    ⟨trace (sub A B), sub (trace A) (trace B)⟩ ]

/-- The rules of a stage. -/
def rules : Stage → List (Rule S)
  | .isolate => isolating
  | .normalize => isolating ++ normalizing
  | .collect => isolating ++ normalizing ++ collecting

end Stage

end TraceCalculus
