import TraceCalculus.Expr.Traversal

/-! # The nodes of an expression, and the order of the visits

Whatever is pending, the next node is the first one that the entries have left (`next?_eq_some`): an
entry that is expanded already has only its node left, any other one all its nodes. So a stack yields
what the recursion lists of its entries, one after the other (`walk_eq`), and `visits`, which starts
with the whole expression, yields what `postOrder` lists (`visits_eq_postOrder`).

A list does not tell equal subexpressions apart, the way to them from the root does (`nodeAt?`).
`Precedes` orders these paths, operands before their node and the left one first, and `paths` is the
list of all of them in this order. The visits go along `paths`: every node is visited once, in its turn
(`visits_along_paths`).
-/

set_option autoImplicit false

namespace TraceCalculus.Expr

variable {S : Type}

/-! ## Subexpressions -/

/-- The induction over an expression, with one case for all nodes. -/
theorem children_induction {P : Expr S → Prop} (step : ∀ e, (∀ a ∈ e.children, P a) → P e)
    (e : Expr S) : P e := by
  induction e with
  | var | scalarVar | literal | null => exact step _ nofun
  | differential a ih | trace a ih | transpose a ih => exact step _ (by simpa [children] using ih)
  | add a b iha ihb | sub a b iha ihb | scale a b iha ihb | matMul a b iha ihb =>
    exact step _ (by simpa [children] using ⟨iha, ihb⟩)

theorem postOrder_eq (e : Expr S) : e.postOrder = e.children.flatMap postOrder ++ [e] := by
  cases e <;> simp [postOrder, children]

theorem mem_postOrder_iff {b e : Expr S} :
    b ∈ e.postOrder ↔ b = e ∨ ∃ a ∈ e.children, b ∈ a.postOrder := by
  rw [postOrder_eq, List.mem_append, List.mem_flatMap, List.mem_singleton, or_comm]

theorem self_mem_postOrder (e : Expr S) : e ∈ e.postOrder := mem_postOrder_iff.2 (.inl rfl)

theorem mem_postOrder_of_mem_children {a b e : Expr S} (ha : a ∈ e.children)
    (hb : b ∈ a.postOrder) : b ∈ e.postOrder :=
  mem_postOrder_iff.2 (.inr ⟨a, ha, hb⟩)

theorem forall_postOrder_iff {e : Expr S} {P : Expr S → Prop} :
    (∀ s ∈ e.postOrder, P s) ↔ P e ∧ ∀ a ∈ e.children, ∀ s ∈ a.postOrder, P s := by
  constructor
  · intro h
    exact ⟨h e (self_mem_postOrder e), fun a ha s hs => h s (mem_postOrder_of_mem_children ha hs)⟩
  · rintro ⟨he, hchildren⟩ s hs
    rcases mem_postOrder_iff.1 hs with rfl | ⟨a, ha, hs⟩
    · exact he
    · exact hchildren a ha s hs

/-- What operands inherit all subexpressions inherit. -/
theorem forall_postOrder_of_inherited {e : Expr S} {P : Expr S → Prop}
    (hP : ∀ {a e}, P e → a ∈ e.children → P a) (he : P e) : ∀ s ∈ e.postOrder, P s := by
  induction e using children_induction with
  | step e ih => exact forall_postOrder_iff.2 ⟨he, fun a ha => ih a ha (hP he ha)⟩

theorem contains_iff {k : Kind} {e : Expr S} :
    e.contains k = true ↔ e.kind = k ∨ ∃ a ∈ e.children, a.contains k = true := by
  cases e <;> simp [contains, kind, children, or_assoc, @eq_comm _ k]

theorem contains_iff_exists_mem {k : Kind} {e : Expr S} :
    e.contains k = true ↔ ∃ a ∈ e.postOrder, a.kind = k := by
  induction e using children_induction with
  | step e ih =>
    rw [contains_iff]
    constructor
    · rintro (hk | ⟨a, ha, hk⟩)
      · exact ⟨e, self_mem_postOrder e, hk⟩
      · obtain ⟨b, hb, hk⟩ := (ih a ha).1 hk
        exact ⟨b, mem_postOrder_of_mem_children ha hb, hk⟩
    · rintro ⟨b, hb, hk⟩
      rcases mem_postOrder_iff.1 hb with rfl | ⟨a, ha, hb⟩
      · exact .inl hk
      · exact .inr ⟨a, ha, (ih a ha).2 ⟨b, hb, hk⟩⟩

theorem length_postOrder (e : Expr S) : e.postOrder.length = e.size := by
  induction e with
  | var | scalarVar | literal | null => rfl
  | differential a ih | trace a ih | transpose a ih => simp [postOrder, size, ih]
  | add a b iha ihb | sub a b iha ihb | scale a b iha ihb | matMul a b iha ihb =>
    simp [postOrder, size, iha, ihb, Nat.add_assoc]

/-! ## The stack -/

/-- What a pending node has left to yield. -/
def Pending.yields (p : Pending S) : List (Expr S) :=
  if p.expanded then [p.node] else p.node.postOrder

/-- Expanding an operator changes nothing of what is left. -/
theorem yields_expand (node : Expr S) (stack : List (Pending S)) :
    (node.expand stack).flatMap Pending.yields =
      (⟨node, false⟩ :: stack).flatMap Pending.yields := by
  simp [expand, Pending.yields, postOrder_eq node, List.flatMap_map]

theorem next?_eq_none {stack : List (Pending S)} (h : next? stack = none) : stack = [] := by
  fun_induction next? stack with
  | case1 => rfl
  | case2 | case3 => cases h
  | case4 node stack _ ih => exact absurd (ih h) (by simp [expand])

/-- The next node is the first that is left, and the others stay. -/
theorem next?_eq_some {stack rest : List (Pending S)} {node : Expr S}
    (h : next? stack = some (node, rest)) :
    stack.flatMap Pending.yields = node :: rest.flatMap Pending.yields := by
  fun_induction next? stack with
  | case1 => cases h
  | case2 =>
    cases h
    simp [Pending.yields]
  | case3 node stack hleaf =>
    cases h
    simp [Pending.yields, postOrder_eq node, List.isEmpty_iff.1 hleaf]
  | case4 node stack _ ih => exact (yields_expand node stack).symm.trans (ih h)

theorem walk_eq (stack : List (Pending S)) : walk stack = stack.flatMap Pending.yields := by
  fun_induction walk stack with
  | case1 stack h => rw [next?_eq_none h, List.flatMap_nil]
  | case2 stack node rest h ih => rw [ih, next?_eq_some h]

theorem visits_eq_postOrder (e : Expr S) : e.visits = e.postOrder := by
  simp [visits, walk_eq, Pending.yields]

/-! ## The way to a node -/

/-- The node that a path leads to: the numbers of the operands on the way to it from the root, counted
from zero. -/
def nodeAt? : Expr S → List Nat → Option (Expr S)
  | e, [] => some e
  | e, i :: path => e.children[i]?.bind fun a => a.nodeAt? path

/-- The node at the first path is visited before the one at the second: it stands below it, or further
to the left. -/
inductive Precedes : List Nat → List Nat → Prop
  | operand {i : Nat} {path : List Nat} : Precedes (i :: path) []
  | left {i j : Nat} {path path' : List Nat} (h : i < j) : Precedes (i :: path) (j :: path')
  | within {i : Nat} {path path' : List Nat} (h : Precedes path path') :
      Precedes (i :: path) (i :: path')

@[simp] theorem precedes_nil (i : Nat) (path : List Nat) : Precedes (i :: path) [] := .operand

@[simp] theorem precedes_cons_cons {i j : Nat} {path path' : List Nat} :
    Precedes (i :: path) (j :: path') ↔ i < j ∨ i = j ∧ Precedes path path' := by
  constructor
  · intro h
    cases h with
    | left h => exact .inl h
    | within h => exact .inr ⟨rfl, h⟩
  · rintro (h | ⟨rfl, h⟩)
    · exact .left h
    · exact .within h

theorem Precedes.ne {path path' : List Nat} (h : Precedes path path') : path ≠ path' := by
  induction h with
  | operand => exact List.cons_ne_nil _ _
  | left h => exact fun heq => Nat.ne_of_lt h (List.cons.inj heq).1
  | within _ ih => exact fun heq => ih (List.cons.inj heq).2

/-- The paths to all nodes, operands first. -/
def paths : Expr S → List (List Nat)
  | .differential inner | .trace inner | .transpose inner => inner.paths.map (0 :: ·) ++ [[]]
  | .add lhs rhs | .sub lhs rhs | .scale lhs rhs | .matMul lhs rhs =>
    lhs.paths.map (0 :: ·) ++ rhs.paths.map (1 :: ·) ++ [[]]
  | _ => [[]]

theorem mem_paths {e : Expr S} {path : List Nat} :
    path ∈ e.paths ↔ (e.nodeAt? path).isSome = true := by
  induction e generalizing path with
  | var | scalarVar | literal | null => cases path <;> simp [paths, nodeAt?, children]
  | differential inner ih | trace inner ih | transpose inner ih =>
    rcases path with _ | ⟨_ | i, path⟩ <;> simp [paths, nodeAt?, children, ih]
  | add lhs rhs ihl ihr | sub lhs rhs ihl ihr | scale lhs rhs ihl ihr | matMul lhs rhs ihl ihr =>
    rcases path with _ | ⟨_ | _ | i, path⟩ <;> simp [paths, nodeAt?, children, ihl, ihr]

/-- The paths lead to the nodes in post-order. -/
theorem map_nodeAt?_paths (e : Expr S) : e.paths.map e.nodeAt? = e.postOrder.map some := by
  induction e with
  | var | scalarVar | literal | null => rfl
  | differential inner ih | trace inner ih | transpose inner ih =>
    simp [paths, postOrder, nodeAt?, children, Function.comp_def, ih]
  | add lhs rhs ihl ihr | sub lhs rhs ihl ihr | scale lhs rhs ihl ihr | matMul lhs rhs ihl ihr =>
    simp [paths, postOrder, nodeAt?, children, Function.comp_def, ihl, ihr]

theorem pairwise_paths (e : Expr S) : e.paths.Pairwise Precedes := by
  induction e with
  | var | scalarVar | literal | null => exact List.pairwise_singleton _ _
  | differential inner ih | trace inner ih | transpose inner ih =>
    simp [paths, List.pairwise_append, List.pairwise_map, ih]
  | add lhs rhs ihl ihr | sub lhs rhs ihl ihr | scale lhs rhs ihl ihr | matMul lhs rhs ihl ihr =>
    simp [paths, List.pairwise_append, List.pairwise_map, or_imp, forall_and, ihl, ihr]

theorem mem_postOrder_iff_exists_path {b e : Expr S} :
    b ∈ e.postOrder ↔ ∃ path, e.nodeAt? path = some b := by
  have hmem : b ∈ e.postOrder ↔ some b ∈ e.paths.map e.nodeAt? := by
    rw [map_nodeAt?_paths]
    simp
  rw [hmem, List.mem_map]
  constructor
  · rintro ⟨path, _, h⟩
    exact ⟨path, h⟩
  · rintro ⟨path, h⟩
    exact ⟨path, mem_paths.2 (Option.isSome_of_eq_some h), h⟩

/-- The stack lists the subexpressions as the recursion does. The visits go along the paths to the
nodes, operands before their node and from left to right, and each of these paths is taken once, also
where the nodes at several paths are equal. So the visits count the nodes, and they come to a node of
some kind exactly if there is one. -/
theorem visits_along_paths (e : Expr S) :
    e.visits = e.postOrder ∧
    (e.visits.map some = e.paths.map e.nodeAt? ∧ e.paths.Pairwise Precedes ∧ e.paths.Nodup ∧
      ∀ path, path ∈ e.paths ↔ ∃ a, e.nodeAt? path = some a) ∧
    e.visits.length = e.size ∧
    ∀ k, (e.visits.any fun a => a.kind == k) = e.contains k ∧
      (e.contains k = true ↔ ∃ path a, e.nodeAt? path = some a ∧ a.kind = k) := by
  have hcontains : ∀ k, e.contains k = true ↔ ∃ path a, e.nodeAt? path = some a ∧ a.kind = k := by
    intro k
    rw [contains_iff_exists_mem]
    constructor
    · rintro ⟨a, ha, hk⟩
      obtain ⟨path, hpath⟩ := mem_postOrder_iff_exists_path.1 ha
      exact ⟨path, a, hpath, hk⟩
    · rintro ⟨path, a, hpath, hk⟩
      exact ⟨a, mem_postOrder_iff_exists_path.2 ⟨path, hpath⟩, hk⟩
  rw [visits_eq_postOrder]
  refine ⟨rfl, ⟨(map_nodeAt?_paths e).symm, pairwise_paths e, (pairwise_paths e).imp Precedes.ne,
    fun path => mem_paths.trans Option.isSome_iff_exists⟩, length_postOrder e,
    fun k => ⟨?_, hcontains k⟩⟩
  rw [Bool.eq_iff_iff, List.any_eq_true, contains_iff_exists_mem]
  simp only [beq_iff_eq]

/-- In `Tr(A*X)-A` the two nodes `A` are at different ends. -/
example : (sub (trace (matMul (var "A") (var "X"))) (var "A") : Expr Int).paths =
    [[0, 0, 0], [0, 0, 1], [0, 0], [0], [1], []] := rfl

end TraceCalculus.Expr
