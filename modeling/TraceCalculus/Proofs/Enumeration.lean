import Mathlib.Order.Lattice.Nat
import TraceCalculus.Proofs.Prices

/-! # Only finitely many expressions are cheaper

The neat expressions that are cheaper than a given one are, up to `==`, among finitely many
(`Expr.exists_mem_candidates`). They have no other names, since those may be too expensive; a number
is the more expensive the more calculations it takes to make it from the numbers of the expression
(`Pricing.upTo`); and operands cost less than their node, so there are only so many levels of nodes
(`Expr.towers`).
-/

set_option autoImplicit false

namespace TraceCalculus

open CongruentScalar (Equivalent)

variable {S : Type} [Scalar S]

/-- The numbers that at most `k` calculations, one upon the other, make of those in `base`. -/
def numbers (base : List S) : Nat → List S
  | 0 => base
  | k + 1 => numbers base k ++ (numbers base k).flatMap fun x =>
      (numbers base k).flatMap fun y => [x + y, x - y, x * y]

theorem numbers_mono {base : List S} {i k : Nat} (h : i ≤ k) {x : S} (hx : x ∈ numbers base i) :
    x ∈ numbers base k := by
  induction h with
  | refl => exact hx
  | step _ ih => exact List.mem_append_left _ ih

theorem mem_numbers_succ {base : List S} {k : Nat} {x y z : S} (hx : x ∈ numbers base k)
    (hy : y ∈ numbers base k) (hz : z ∈ [x + y, x - y, x * y]) : z ∈ numbers base (k + 1) :=
  List.mem_append_right _ (List.mem_flatMap.2 ⟨x, hx, List.mem_flatMap.2 ⟨y, hy, hz⟩⟩)

section Level

variable [CongruentScalar S] {base : List S} {limit k : Nat} {x y z : S}

/-- The calculations it takes to make `x` of the numbers in `base`, or the limit if that is less. -/
noncomputable def level (base : List S) (limit : Nat) (x : S) : Nat :=
  sInf {k | limit ≤ k ∨ ∃ y ∈ numbers base k, Equivalent x y}

theorem level_le (h : limit ≤ k ∨ ∃ y ∈ numbers base k, Equivalent x y) :
    level base limit x ≤ k :=
  Nat.sInf_le h

theorem exists_mem_numbers (h : level base limit x < limit) :
    ∃ y ∈ numbers base (level base limit x), Equivalent x y := by
  have hmem : limit ≤ level base limit x ∨
      ∃ y ∈ numbers base (level base limit x), Equivalent x y :=
    Nat.sInf_mem (s := {k | limit ≤ k ∨ ∃ y ∈ numbers base k, Equivalent x y})
      ⟨limit, .inl (Nat.le_refl limit)⟩
  exact hmem.resolve_left (Nat.not_le.2 h)

theorem level_congr (h : Equivalent x y) : level base limit x = level base limit y := by
  have key : ∀ {x y : S}, Equivalent x y → level base limit x ≤ level base limit y := by
    intro x y h
    rcases Nat.lt_or_ge (level base limit y) limit with hlt | hge
    · obtain ⟨z, hz, hyz⟩ := exists_mem_numbers hlt
      exact level_le (.inr ⟨z, hz, CongruentScalar.trans h hyz⟩)
    · exact level_le (.inl hge)
  exact Nat.le_antisymm (key h) (key (CongruentScalar.symm h))

theorem level_eq_zero (h : x ∈ base) : level base limit x = 0 :=
  Nat.le_zero.1 (level_le (.inr ⟨x, h, CongruentScalar.refl x⟩))

/-- A calculation is one upon those that its operands take. -/
theorem level_calculate (base : List S) (limit : Nat) (x y : S) (op : S → S → S)
    (hop : ∀ {x x' y y' : S}, Equivalent x x' → Equivalent y y' → Equivalent (op x y) (op x' y'))
    (hmem : ∀ x y, op x y ∈ [x + y, x - y, x * y]) :
    level base limit (op x y) ≤ level base limit x + level base limit y + 1 := by
  rcases Nat.lt_or_ge (level base limit x + level base limit y) limit with hlt | hge
  · obtain ⟨x', hx, hxx⟩ := exists_mem_numbers (Nat.lt_of_le_of_lt (Nat.le_add_right _ _) hlt)
    obtain ⟨y', hy, hyy⟩ := exists_mem_numbers (Nat.lt_of_le_of_lt (Nat.le_add_left _ _) hlt)
    exact level_le (.inr ⟨op x' y', mem_numbers_succ (numbers_mono (Nat.le_add_right _ _) hx)
      (numbers_mono (Nat.le_add_left _ _) hy) (hmem x' y'), hop hxx hyy⟩)
  · exact level_le (.inl (Nat.le_succ_of_le hge))

end Level

namespace Pricing

variable [CongruentScalar S]

/-- The pricing where a name that is not listed, and a number that takes too many calculations, cost
more than the limit. -/
noncomputable def upTo (names : List String) (base : List S) (limit : Nat) : Pricing S where
  name s := if s ∈ names then 2 else limit + 2
  number x := level (Scalar.two :: -1 :: base) limit x + 2
  two_le_name s := by
    split
    · exact Nat.le_refl 2
    · exact Nat.le_add_left 2 limit
  two_le_number x := Nat.le_add_left 2 _
  number_congr h := by rw [level_congr h]
  number_two := by rw [level_eq_zero (.head _)]
  number_neg_one := by rw [level_eq_zero (.tail _ (.head _))]
  number_add x y := by
    have hle := level_calculate (Scalar.two :: -1 :: base) limit x y (· + ·)
      CongruentScalar.add_congr (by simp)
    omega
  number_sub x y := by
    have hle := level_calculate (Scalar.two :: -1 :: base) limit x y (· - ·)
      CongruentScalar.sub_congr (by simp)
    omega
  number_mul x y := by
    have hle := level_calculate (Scalar.two :: -1 :: base) limit x y (· * ·)
      CongruentScalar.mul_congr (by simp)
    omega

variable {names : List String} {base : List S} {limit : Nat}

theorem name_upTo {s : String} (h : s ∈ names) : (upTo names base limit).name s = 2 := if_pos h

theorem number_upTo {x : S} (h : x ∈ base) : (upTo names base limit).number x = 2 := by
  change level (Scalar.two :: -1 :: base) limit x + 2 = 2
  rw [level_eq_zero (.tail _ (.tail _ h))]

theorem mem_of_name_upTo_le {s : String} (h : (upTo names base limit).name s ≤ limit) :
    s ∈ names := by
  by_contra hs
  have heq : (upTo names base limit).name s = limit + 2 := if_neg hs
  omega

theorem exists_of_number_upTo_le {x : S} (h : (upTo names base limit).number x ≤ limit) :
    ∃ y ∈ numbers (Scalar.two :: -1 :: base) limit, Equivalent x y := by
  have hlt : level (Scalar.two :: -1 :: base) limit x + 2 ≤ limit := h
  have hlevel : level (Scalar.two :: -1 :: base) limit x < limit := by omega
  obtain ⟨y, hy, hxy⟩ := exists_mem_numbers hlevel
  exact ⟨y, numbers_mono hlevel.le hy, hxy⟩

/-- The pricing where everything costs two. -/
noncomputable def flat : Pricing S := upTo [] [] 0

@[simp] theorem name_flat (s : String) : (flat : Pricing S).name s = 2 := by
  simp [flat, upTo]

@[simp] theorem number_flat (x : S) : (flat : Pricing S).number x = 2 := by
  have hle : level [Scalar.two, -1] 0 x ≤ 0 := level_le (.inl (Nat.le_refl 0))
  change level [Scalar.two, -1] 0 x + 2 = 2
  omega

end Pricing

namespace Expr

/-- The leaves with the given names and numbers. -/
def leavesOf (names : List String) (numbers : List S) : List (Expr S) :=
  .null :: (names.map .var ++ names.map .scalarVar ++ numbers.map .literal)

/-- The expressions with at most `k` levels of nodes above the given leaves. -/
def towers (leaves : List (Expr S)) : Nat → List (Expr S)
  | 0 => leaves
  | k + 1 => leaves ++ (towers leaves k).flatMap fun a =>
      [.differential a, .trace a, .transpose a] ++
        (towers leaves k).flatMap fun b => [.add a b, .sub a b, .scale a b, .matMul a b]

omit [Scalar S] in
theorem mem_towers {leaves : List (Expr S)} {a : Expr S} (h : a ∈ leaves) (k : Nat) :
    a ∈ towers leaves k := by
  cases k with
  | zero => exact h
  | succ k => exact List.mem_append_left _ h

section Towers

variable {leaves : List (Expr S)} {k : Nat} {a b e : Expr S}

omit [Scalar S] in
theorem mem_towers_unary (ha : a ∈ towers leaves k)
    (he : e ∈ [.differential a, .trace a, .transpose a]) : e ∈ towers leaves (k + 1) :=
  List.mem_append_right _ (List.mem_flatMap.2 ⟨a, ha, List.mem_append_left _ he⟩)

omit [Scalar S] in
theorem mem_towers_binary (ha : a ∈ towers leaves k) (hb : b ∈ towers leaves k)
    (he : e ∈ [.add a b, .sub a b, .scale a b, .matMul a b]) : e ∈ towers leaves (k + 1) :=
  List.mem_append_right _ (List.mem_flatMap.2
    ⟨a, ha, List.mem_append_right _ (List.mem_flatMap.2 ⟨b, hb, he⟩)⟩)

end Towers

variable [NumericScalar S] {p q : Pricing S} {e r : Expr S}

/-- Neat expressions of bounded cost are among those with so many levels of nodes. -/
theorem Neat.exists_mem_towers {leaves : List (Expr S)} {k n : Nat}
    (hleaves : ∀ s : Expr S, s.children = [] → s.price p ≤ n → ∃ y ∈ leaves, s.Congruent y)
    (he : e.Neat) (hcost : e.cost p ≤ k) (hprice : e.price p ≤ n) :
    ∃ y ∈ towers leaves k, e.Congruent y := by
  induction k generalizing e with
  | zero =>
    have := e.two_le_price p
    simp only [cost] at hcost
    omega
  | succ k ih =>
    have hoperand : ∀ a ∈ e.children, ∃ y ∈ towers leaves k, a.Congruent y := by
      intro a ha
      have hlt := he.cost_lt (p := p) ha
      exact ih (he.of_mem_children ha) (by omega)
        ((price_le_of_cost_le (cost_le_of_mem_children ha)).trans hprice)
    cases e with
    | var | scalarVar | literal | null =>
      obtain ⟨y, hy, hc⟩ := hleaves _ rfl hprice
      exact ⟨y, mem_towers hy _, hc⟩
    | differential a =>
      obtain ⟨y, hy, hc⟩ := hoperand a (.head _)
      exact ⟨_, mem_towers_unary hy (by simp), .differential hc⟩
    | trace a =>
      obtain ⟨y, hy, hc⟩ := hoperand a (.head _)
      exact ⟨_, mem_towers_unary hy (by simp), .trace hc⟩
    | transpose a =>
      obtain ⟨y, hy, hc⟩ := hoperand a (.head _)
      exact ⟨_, mem_towers_unary hy (by simp), .transpose hc⟩
    | add a b =>
      obtain ⟨y, hy, hc⟩ := hoperand a (.head _)
      obtain ⟨z, hz, hd⟩ := hoperand b (.tail _ (.head _))
      exact ⟨_, mem_towers_binary hy hz (by simp), .add hc hd⟩
    | sub a b =>
      obtain ⟨y, hy, hc⟩ := hoperand a (.head _)
      obtain ⟨z, hz, hd⟩ := hoperand b (.tail _ (.head _))
      exact ⟨_, mem_towers_binary hy hz (by simp), .sub hc hd⟩
    | scale a b =>
      obtain ⟨y, hy, hc⟩ := hoperand a (.head _)
      obtain ⟨z, hz, hd⟩ := hoperand b (.tail _ (.head _))
      exact ⟨_, mem_towers_binary hy hz (by simp), .scale hc hd⟩
    | matMul a b =>
      obtain ⟨y, hy, hc⟩ := hoperand a (.head _)
      obtain ⟨z, hz, hd⟩ := hoperand b (.tail _ (.head _))
      exact ⟨_, mem_towers_binary hy hz (by simp), .matMul hc hd⟩

/-- The price is the higher the higher the prices of the leaves. -/
theorem price_le_of_leaves
    (h : ∀ s ∈ e.postOrder, s.children = [] → s.price p ≤ s.price q) : e.price p ≤ e.price q := by
  induction e with
  | var | scalarVar | literal | null => exact h _ (self_mem_postOrder _) rfl
  | differential a ih | trace a ih =>
    exact Nat.mul_le_mul_left 2
      (ih fun s hs => h s (mem_postOrder_of_mem_children (.head _) hs))
  | transpose a ih => exact ih fun s hs => h s (mem_postOrder_of_mem_children (.head _) hs)
  | add a b iha ihb | sub a b iha ihb | scale a b iha ihb | matMul a b iha ihb =>
    have ha := iha fun s hs => h s (mem_postOrder_of_mem_children (.head _) hs)
    have hb := ihb fun s hs => h s (mem_postOrder_of_mem_children (.tail _ (.head _)) hs)
    first
    | exact Nat.mul_le_mul ha hb
    | exact Nat.add_le_add ha hb
    | exact Nat.add_le_add ha (Nat.mul_le_mul_left 2 hb)

/-- The leaves of an expression cost two where its names and numbers are listed. -/
theorem price_upTo_le (e : Expr S) (limit : Nat) :
    e.price (.upTo (e.postOrder.filterMap name?) (e.postOrder.filterMap value?) limit) ≤
      e.price .flat := by
  refine price_le_of_leaves fun s hs hleaf => ?_
  cases s with
  | var name | scalarVar name =>
    simp only [price, Pricing.name_flat]
    exact (Pricing.name_upTo (List.mem_filterMap.2 ⟨_, hs, rfl⟩)).le
  | literal x =>
    have hmem : x ∈ e.postOrder.filterMap value? := List.mem_filterMap.2 ⟨_, hs, rfl⟩
    simp only [price, Pricing.number_flat]
    exact (Pricing.number_upTo hmem).le
  | null => exact Nat.le_refl 2
  | _ => cases hleaf

theorem exists_mem_leavesOf {names : List String} {base : List S} {limit : Nat} {s : Expr S}
    (hs : s.children = []) (h : s.price (.upTo names base limit) ≤ limit) :
    ∃ y ∈ leavesOf names (numbers (Scalar.two :: -1 :: base) limit), s.Congruent y := by
  cases s with
  | var name | scalarVar name =>
    have hmem := Pricing.mem_of_name_upTo_le h
    exact ⟨_, by simp [leavesOf, hmem], .refl _⟩
  | literal x =>
    obtain ⟨y, hy, hxy⟩ := Pricing.exists_of_number_upTo_le h
    exact ⟨.literal y, by simp [leavesOf, hy], .literal hxy⟩
  | null => exact ⟨.null, .head _, .null⟩
  | _ => cases hs

/-- The expressions that a neat one can be if it is cheaper than `e`. -/
noncomputable def candidates (e : Expr S) : List (Expr S) :=
  towers (leavesOf (e.postOrder.filterMap name?)
    (numbers (Scalar.two :: -1 :: e.postOrder.filterMap value?) (e.price .flat)))
      (2 * e.price .flat + 1)

theorem exists_mem_candidates (h : Cheaper e r) (hr : r.Neat) :
    ∃ y ∈ e.candidates, r.Congruent y := by
  have hle := (h.price_le _).trans (price_upTo_le e (e.price .flat))
  exact hr.exists_mem_towers (fun s hs hsn => exists_mem_leavesOf hs hsn)
    ((r.cost_le _).trans (by omega)) hle

end Expr

end TraceCalculus
