import Mathlib.Data.List.Nodup
import Mathlib.Data.List.Perm.Basic
import TraceCalculus.Pattern.Rule

/-! # Filling in a template is substitution

`Template.fill` works on a list of nodes: it looks up where each variable stands, collects what is
to be put there, and builds the nodes in order. `Template.fill_ofExpr` says that the outcome is that
of the recursive `Expr.subst`.

The entries that are collected are, up to their order, those that a recursion over the replacement
would collect (`entries_perm`). No two of them are for one node, so the order does not matter
(`lookup_perm`), and the nodes are then built as the recursion builds them (`buildAll_layout`).
-/

set_option autoImplicit false

namespace TraceCalculus.Template

variable {S : Type}

/-! ## The entries of a replacement -/

/-- What an expression that is a variable has taken. -/
def taken (σ : Assignment S) (e : Expr S) : Option (Expr S) := e.name?.bind σ.get?

/-- What is put at the operand `e` with index `index`, unless it is under a transpose. -/
def own (σ : Assignment S) (index : Nat) (e : Expr S) : List (Nat × Expr S) :=
  ((taken σ e).map (index, ·)).toList

/-- The entries of an expression that is laid out from `start` on, collected by recursion. -/
def fillings (σ : Assignment S) (start : Nat) : Expr S → List (Nat × Expr S)
  | .var name => own σ start (.var name)
  | .scalarVar name => own σ start (.scalarVar name)
  | .literal _ | .null => []
  | .differential a | .trace a => fillings σ start a
  | .transpose a =>
    match taken σ a with
    | some (.transpose inner) => [(start + a.size, inner)]
    | _ => fillings σ start a
  | .add a b | .sub a b | .scale a b | .matMul a b =>
    fillings σ start a ++ fillings σ (start + a.size) b

theorem taken_eq_none {σ : Assignment S} {e : Expr S} (h : e.name? = none) : taken σ e = none := by
  simp [taken, h]

theorem name?_of_taken {σ : Assignment S} {a e : Expr S} (h : taken σ a = some e) :
    ∃ name, a.name? = some name ∧ σ.get? name = some e := by
  simpa [taken, Option.bind_eq_some_iff] using h

theorem size_of_taken {σ : Assignment S} {a e : Expr S} (h : taken σ a = some e) : a.size = 1 := by
  obtain ⟨name, hn, -⟩ := name?_of_taken h
  cases a with
  | var | scalarVar => rfl
  | _ => cases hn

theorem layout_of_taken {σ : Assignment S} (start : Nat) {a e : Expr S} (h : taken σ a = some e) :
    ∃ name, layout start a = [.hole name a] := by
  obtain ⟨name, hn, -⟩ := name?_of_taken h
  cases a with
  | var | scalarVar => exact ⟨_, rfl⟩
  | _ => cases hn

theorem fillings_transpose {σ : Assignment S} {start : Nat} {a : Expr S}
    (h : ∀ inner, taken σ a ≠ some (.transpose inner)) :
    fillings σ start (.transpose a) = fillings σ start a := by
  rw [fillings]
  split
  case h_1 inner hi => exact absurd hi (h inner)
  case h_2 => rfl

/-- An entry is for a node of the expression it belongs to. -/
theorem mem_fillings {σ : Assignment S} {start k : Nat} {e x : Expr S}
    (h : (k, x) ∈ fillings σ start e) : start ≤ k ∧ k < start + e.size := by
  induction e generalizing start with
  | var name | scalarVar name =>
    simp only [fillings, own, Option.mem_toList, Option.map_eq_some_iff, Prod.mk.injEq] at h
    obtain ⟨_, _, rfl, _⟩ := h
    exact ⟨Nat.le_refl _, Nat.lt_succ_self _⟩
  | literal | null => cases h
  | differential a ih | trace a ih =>
    have := ih h
    simp only [Expr.size]
    omega
  | transpose a ih =>
    simp only [fillings] at h
    split at h
    · simp only [List.mem_singleton, Prod.mk.injEq] at h
      simp only [Expr.size]
      omega
    · have := ih h
      simp only [Expr.size]
      omega
  | add a b iha ihb | sub a b iha ihb | scale a b iha ihb | matMul a b iha ihb =>
    simp only [fillings, List.mem_append] at h
    simp only [Expr.size]
    rcases h with h | h
    · have := iha h
      omega
    · have := ihb h
      omega

/-- No two entries are for one node. -/
theorem nodup_fillings (σ : Assignment S) (start : Nat) (e : Expr S) :
    ((fillings σ start e).map Prod.fst).Nodup := by
  induction e generalizing start with
  | var name | scalarVar name =>
    simp only [fillings, own]
    cases taken σ _ <;> simp
  | literal | null => exact List.nodup_nil
  | differential a ih | trace a ih => exact ih start
  | transpose a ih =>
    simp only [fillings]
    split
    · exact List.nodup_singleton _
    · exact ih start
  | add a b iha ihb | sub a b iha ihb | scale a b iha ihb | matMul a b iha ihb =>
    simp only [fillings, List.map_append]
    refine List.Nodup.append (iha start) (ihb _) fun k hk hk' => ?_
    -- the entries of the left operand come before those of the right one
    simp only [List.mem_map, Prod.exists, exists_and_right, exists_eq_right] at hk hk'
    obtain ⟨x, hx⟩ := hk
    obtain ⟨y, hy⟩ := hk'
    have := mem_fillings hx
    have := mem_fillings hy
    omega

theorem lookup_fillings_eq_none (σ : Assignment S) (start : Nat) (e : Expr S) {k : Nat}
    (h : k < start ∨ start + e.size ≤ k) : (fillings σ start e).lookup k = none := by
  rw [List.lookup_eq_none_iff]
  rintro ⟨j, x⟩ hx
  have := mem_fillings hx
  have hne : k ≠ j := by omega
  simpa using hne

theorem lookup_eq_some_iff {α : Type} {l : List (Nat × α)} (hn : (l.map Prod.fst).Nodup) {k : Nat}
    {x : α} : l.lookup k = some x ↔ (k, x) ∈ l := by
  induction l with
  | nil => simp
  | cons a l ih =>
    obtain ⟨j, y⟩ := a
    simp only [List.map_cons, List.nodup_cons] at hn
    rw [List.lookup_cons, List.mem_cons]
    by_cases hk : k = j
    · subst hk
      have hmem : (k, x) ∉ l := fun h => hn.1 (List.mem_map_of_mem h)
      simp [hmem, eq_comm]
    · have hb : (k == j) = false := by simpa using hk
      simp [hb, ih hn.2, hk]

theorem lookup_perm {α : Type} {l₁ l₂ : List (Nat × α)} (h : l₁.Perm l₂)
    (hn : (l₁.map Prod.fst).Nodup) (k : Nat) : l₁.lookup k = l₂.lookup k := by
  have hn' : (l₂.map Prod.fst).Nodup := (h.map Prod.fst).nodup_iff.1 hn
  refine Option.ext fun x => ?_
  rw [lookup_eq_some_iff hn, lookup_eq_some_iff hn', h.mem_iff]

/-! ## Building the nodes -/

/-- Behind the `start` expressions of `old` there are `size` more in `new`, the last of which is
`result`. -/
structure Built (start size : Nat) (old new : Array (Expr S)) (result : Expr S) : Prop where
  size_eq : new.size = start + size
  keeps : ∀ k, k < start → new[k]? = old[k]?
  last : new[start + size - 1]? = some result

theorem Built.push {start size : Nat} {old new : Array (Expr S)} {result : Expr S}
    (h : Built start size old new result) (e : Expr S) :
    Built start (size + 1) old (new.push e) e where
  size_eq := by rw [Array.size_push, h.size_eq, Nat.add_assoc]
  keeps k hk := by
    have hs := h.size_eq
    rw [Array.getElem?_push_lt (by omega), ← h.keeps k hk, Array.getElem?_eq_getElem]
  last := by
    have hs := h.size_eq
    have hi : start + (size + 1) - 1 = new.size := by omega
    rw [hi, Array.getElem?_push_size]

theorem Built.append {start m n : Nat} {old mid new : Array (Expr S)} {a b : Expr S}
    (ha : Built start m old mid a) (hb : Built (start + m) n mid new b) :
    Built start (m + n) old new b where
  size_eq := by rw [hb.size_eq, Nat.add_assoc]
  keeps k hk := by rw [hb.keeps k (by omega), ha.keeps k hk]
  last := by rw [← Nat.add_assoc]; exact hb.last

variable [Scalar S]

theorem buildAll_append (entries : List (Nat × Expr S)) (l₁ l₂ : List (Node S))
    (built : Array (Expr S)) :
    buildAll entries (l₁ ++ l₂) built = buildAll entries l₂ (buildAll entries l₁ built) := by
  induction l₁ generalizing built with
  | nil => rfl
  | cons node rest ih => exact ih _

theorem built_leaf (entries : List (Nat × Expr S)) {start : Nat} {built : Array (Expr S)}
    (hb : built.size = start) (node : Node S) :
    Built start 1 built (buildAll entries [node] built)
      ((entries.lookup start).getD (node.build built)) := by
  subst hb
  refine ⟨Array.size_push _, fun k hk => ?_, ?_⟩
  · rw [buildAll, buildAll, Array.getElem?_push_lt hk, Array.getElem?_eq_getElem hk]
  · rw [buildAll, buildAll, Nat.add_sub_cancel, Array.getElem?_push_size]

theorem built_hole {entries : List (Nat × Expr S)} {σ : Assignment S} {start : Nat}
    {built : Array (Expr S)} {name : String} {e : Expr S} (hb : built.size = start)
    (hn : e.name? = some name) (hl : entries.lookup start = (own σ start e).lookup start) :
    Built start 1 built (buildAll entries [.hole name e] built) ((σ.get? name).getD e) := by
  have h := built_leaf entries hb (.hole name e)
  have hv : (own σ start e).lookup start = σ.get? name := by
    simp only [own, taken, hn, Option.bind_some]
    cases σ.get? name <;> simp
  rwa [hl, hv] at h

theorem subst_of_taken {σ : Assignment S} {a e : Expr S} (h : taken σ a = some e) :
    a.subst σ = e := by
  obtain ⟨name, hn, he⟩ := name?_of_taken h
  cases a with
  | var | scalarVar =>
    cases hn
    simp [Expr.subst, he]
  | _ => cases hn

section Node

variable (entries : List (Nat × Expr S)) {start size : Nat} {old mid new : Array (Expr S)}
  {a b : Expr S}

theorem Built.node (h : Built start size old new a) (node : Node S) :
    Built start (size + 1) old (buildAll entries [node] new)
      ((entries.lookup (start + size)).getD (node.build new)) := by
  have hp := h.push ((entries.lookup (start + size)).getD (node.build new))
  rwa [buildAll, h.size_eq]

variable {entries}

/-- A node that has no entry is built over its operand. -/
theorem Built.unary (h : Built start size old new a) (op : Unary)
    (hl : entries.lookup (start + size) = none) :
    Built start (size + 1) old (buildAll entries [.unary op (start + size - 1)] new)
      (Node.build #[a] (.unary op 0)) := by
  have hn := h.node entries (.unary op (start + size - 1))
  rw [hl] at hn
  simpa [Node.build, h.last] using hn

theorem Built.binary {m n : Nat} (ha : Built start m old mid a) (hm : 0 < m)
    (hb : Built (start + m) n mid new b) (op : Operator)
    (hl : entries.lookup (start + (m + n)) = none) :
    Built start (m + n + 1) old
      (buildAll entries [.binary op (start + m - 1) (start + m + n - 1)] new) (a.joined op b) := by
  have hn := (ha.append hb).node entries
    (.binary op (start + m - 1) (start + m + n - 1))
  have hlast : new[start + m - 1]? = some a := by rw [hb.keeps _ (by omega), ha.last]
  rw [hl] at hn
  simpa [Node.build, hlast, hb.last] using hn

end Node

theorem built_onBinary {entries : List (Nat × Expr S)} {σ : Assignment S} {start : Nat}
    {a b : Expr S} {built : Array (Expr S)}
    (iha : ∀ {start : Nat} {built : Array (Expr S)}, built.size = start →
      (∀ k, start ≤ k → k < start + a.size →
        entries.lookup k = (fillings σ start a).lookup k) →
      Built start a.size built (buildAll entries (layout start a) built) (a.subst σ))
    (ihb : ∀ {start : Nat} {built : Array (Expr S)}, built.size = start →
      (∀ k, start ≤ k → k < start + b.size →
        entries.lookup k = (fillings σ start b).lookup k) →
      Built start b.size built (buildAll entries (layout start b) built) (b.subst σ))
    (hb : built.size = start)
    (hf : ∀ k, start ≤ k → k < start + (a.size + b.size + 1) → entries.lookup k =
      (fillings σ start a ++ fillings σ (start + a.size) b).lookup k) (op : Operator) :
    Built start (a.size + b.size + 1) built
      (buildAll entries (onBinary start op (layout start a) (layout (start + a.size) b)) built)
      ((a.subst σ).joined op (b.subst σ)) := by
  have ha := iha hb fun k h₁ h₂ => by
    rw [hf k h₁ (by omega), List.lookup_append,
      lookup_fillings_eq_none σ (start + a.size) b (.inl h₂), Option.or_none]
  have hb' := ihb ha.size_eq fun k h₁ h₂ => by
    rw [hf k (by omega) (by omega), List.lookup_append,
      lookup_fillings_eq_none σ start a (.inr h₁), Option.none_or]
  have hn : entries.lookup (start + (a.size + b.size)) = none := by
    rw [hf _ (by omega) (by omega), List.lookup_append,
      lookup_fillings_eq_none σ start a (.inr (by omega)),
      lookup_fillings_eq_none σ (start + a.size) b (.inr (by omega)), Option.or_none]
  have h := ha.binary a.size_pos hb' op hn
  simpa [onBinary, length_layout, buildAll_append] using h

/-- Nodes are built as the recursion builds them. -/
theorem buildAll_layout {entries : List (Nat × Expr S)} {σ : Assignment S} {start : Nat}
    (e : Expr S) {built : Array (Expr S)} (hb : built.size = start)
    (hf : ∀ k, start ≤ k → k < start + e.size →
      entries.lookup k = (fillings σ start e).lookup k) :
    Built start e.size built (buildAll entries (layout start e) built) (e.subst σ) := by
  -- the entry of a node whose operand is not put in its place
  have none_of : ∀ {a : Expr S} {start : Nat}, entries.lookup (start + a.size) =
      (fillings σ start a).lookup (start + a.size) → entries.lookup (start + a.size) = none :=
    fun h => h.trans (lookup_fillings_eq_none _ _ _ (.inr (Nat.le_refl _)))
  induction e generalizing start built with
  | var name => exact built_hole hb rfl (hf start (Nat.le_refl _) (Nat.lt_succ_self _))
  | scalarVar name => exact built_hole hb rfl (hf start (Nat.le_refl _) (Nat.lt_succ_self _))
  | literal x =>
    have h := built_leaf entries hb (.leaf (.literal x))
    rwa [hf start (Nat.le_refl _) (Nat.lt_succ_self _)] at h
  | null =>
    have h := built_leaf entries hb (.leaf .null)
    rwa [hf start (Nat.le_refl _) (Nat.lt_succ_self _)] at h
  | differential a ih =>
    have ha := ih hb fun k h₁ h₂ => hf k h₁ (Nat.lt_succ_of_lt h₂)
    have h := ha.unary .differential (none_of (hf _ (Nat.le_add_right _ _) (Nat.lt_succ_self _)))
    rwa [layout, onUnary, length_layout, buildAll_append]
  | trace a ih =>
    have ha := ih hb fun k h₁ h₂ => hf k h₁ (Nat.lt_succ_of_lt h₂)
    have h := ha.unary .trace (none_of (hf _ (Nat.le_add_right _ _) (Nat.lt_succ_self _)))
    rwa [layout, onUnary, length_layout, buildAll_append]
  | transpose a ih =>
    rw [layout, onUnary, length_layout, buildAll_append]
    by_cases ht : ∃ inner, taken σ a = some (.transpose inner)
    · -- the entry is for the node itself, and its operand is built in vain
      obtain ⟨inner, ht⟩ := ht
      obtain ⟨name, hlay⟩ := layout_of_taken start ht
      have h1 := size_of_taken ht
      have ha := built_leaf entries hb (.hole name a)
      have hn := ha.node entries (.unary .transpose (start + a.size - 1))
      have hi := hf (start + 1) (Nat.le_add_right _ _) (by simp [Expr.size, h1])
      simp only [fillings, ht, h1, List.lookup_cons_self] at hi
      rw [h1, hi] at hn
      simp only [Expr.size, Expr.subst, h1, hlay, subst_of_taken ht]
      exact hn
    · rw [not_exists] at ht
      rw [fillings_transpose ht] at hf
      have ha := ih hb fun k h₁ h₂ => hf k h₁ (Nat.lt_succ_of_lt h₂)
      exact ha.unary .transpose (none_of (hf _ (Nat.le_add_right _ _) (Nat.lt_succ_self _)))
  | add a b iha ihb => exact built_onBinary iha ihb hb hf .plus
  | sub a b iha ihb => exact built_onBinary iha ihb hb hf .minus
  | scale a b iha ihb => exact built_onBinary iha ihb hb hf .times
  | matMul a b iha ihb => exact built_onBinary iha ihb hb hf .times

/-! ## Collecting the entries -/

/-- The nodes `l` lie in `nodes` from `start` on. -/
def Lies (nodes : Array (Node S)) (start : Nat) (l : List (Node S)) : Prop :=
  ∀ k, k < l.length → nodes[start + k]? = l[k]?

omit [Scalar S] in
theorem Lies.append {nodes : Array (Node S)} {start : Nat} {l₁ l₂ : List (Node S)}
    (h : Lies nodes start (l₁ ++ l₂)) :
    Lies nodes start l₁ ∧ Lies nodes (start + l₁.length) l₂ := by
  constructor
  · intro k hk
    rw [h k (by simp; omega), List.getElem?_append_left hk]
  · intro k hk
    rw [Nat.add_assoc, h _ (by simp; omega), List.getElem?_append_right (by omega)]
    congr 1
    omega

omit [Scalar S] in
theorem Lies.head {nodes : Array (Node S)} {start : Nat} {node : Node S}
    (h : Lies nodes start [node]) : nodes[start]? = some node :=
  h 0 Nat.zero_lt_one

/-- The entries that the operands of one node give rise to. -/
def nodeEntries (t : Template S) (σ : Assignment S) (node : Node S) (parent : Nat) :
    List (Nat × Expr S) :=
  node.operands.zipIdx.filterMap fun (operand, position) =>
    (holeAt? t.nodes operand).bind fun name => t.entry? σ ⟨some parent, position, name⟩

/-- The entries that the operands of the nodes `l` give rise to, which lie from `start` on. -/
def listEntries (t : Template S) (σ : Assignment S) (start : Nat) (l : List (Node S)) :
    List (Nat × Expr S) :=
  (l.zipIdx start).flatMap fun (node, parent) => nodeEntries t σ node parent

omit [Scalar S]

theorem listEntries_append (t : Template S) (σ : Assignment S) (start : Nat)
    (l₁ l₂ : List (Node S)) : listEntries t σ start (l₁ ++ l₂) =
      listEntries t σ start l₁ ++ listEntries t σ (start + l₁.length) l₂ := by
  simp [listEntries, List.zipIdx_append]

theorem listEntries_singleton (t : Template S) (σ : Assignment S) (start : Nat) (node : Node S) :
    listEntries t σ start [node] = nodeEntries t σ node start := by
  simp [listEntries]

section Entry

variable {t : Template S} {σ : Assignment S} {start : Nat} {a b : Expr S}

theorem holeAt?_layout {nodes : Array (Node S)} (h : Lies nodes start (layout start a)) :
    holeAt? nodes (start + a.size - 1) = a.name? := by
  have hpos := a.size_pos
  have hlast := h (a.size - 1) (by rw [length_layout]; omega)
  rw [← Nat.add_sub_assoc hpos] at hlast
  rw [holeAt?, hlast]
  cases a <;> simp [layout, onUnary, onBinary, Expr.size, Expr.name?, Node.hole?, length_layout]

theorem entry?_eq {parent position index : Nat} {name : String} {node : Node S}
    (hp : t.nodes[parent]? = some node) (ho : node.operands[position]? = some index)
    (ht : t.isTranspose parent = false) :
    t.entry? σ ⟨some parent, position, name⟩ = (σ.get? name).map (index, ·) := by
  simp only [indexOf?, entry?, hp, Option.bind_some, ho]
  cases σ.get? name with
  | none => rfl
  | some e => cases e <;> simp [ht]

theorem entry?_transpose (σ : Assignment S) {parent index : Nat} (name : String)
    (hp : t.nodes[parent]? = some (.unary .transpose index)) :
    t.entry? σ ⟨some parent, 0, name⟩ = (σ.get? name).map fun e =>
      match e with
      | .transpose inner => (parent, inner)
      | e => (index, e) := by
  have ht : t.isTranspose parent = true := by simp [isTranspose, hp]
  simp only [indexOf?, entry?, hp, Option.bind_some, Node.operands]
  cases σ.get? name with
  | none => rfl
  | some e => cases e <;> simp [ht]

theorem bind_entry?_eq (σ : Assignment S) {parent : Nat} (position : Nat) {index : Nat} {node : Node S}
    (hp : t.nodes[parent]? = some node) (ho : node.operands[position]? = some index)
    (ht : t.isTranspose parent = false) (ha : holeAt? t.nodes index = a.name?) :
    ((holeAt? t.nodes index).bind fun name => t.entry? σ ⟨some parent, position, name⟩) =
      (taken σ a).map (index, ·) := by
  simp only [ha, entry?_eq hp ho ht, taken]
  cases a.name? <;> rfl

theorem nodeEntries_unary {parent index : Nat} {op : Unary} (hop : op ≠ .transpose)
    (hp : t.nodes[parent]? = some (.unary op index))
    (ha : holeAt? t.nodes index = a.name?) :
    nodeEntries t σ (.unary op index) parent = own σ index a := by
  have ht : t.isTranspose parent = false := by
    cases op <;> simp_all [isTranspose]
  have h := bind_entry?_eq σ 0 hp rfl ht ha
  simp only [nodeEntries, Node.operands, List.zipIdx_cons, List.zipIdx_nil, List.filterMap_cons, h,
    own, List.filterMap_nil]
  cases taken σ a <;> rfl

theorem nodeEntries_transpose {parent index : Nat}
    (hp : t.nodes[parent]? = some (.unary .transpose index))
    (ha : holeAt? t.nodes index = a.name?) :
    nodeEntries t σ (.unary .transpose index) parent =
      match taken σ a with
      | some (.transpose inner) => [(parent, inner)]
      | _ => own σ index a := by
  have he := fun name => entry?_transpose σ name hp
  cases hn : a.name? with
  | none => simp [nodeEntries, Node.operands, ha, hn, own, taken]
  | some name =>
    cases hs : σ.get? name with
    | none => simp [nodeEntries, Node.operands, ha, hn, own, taken, he, hs]
    | some e => cases e <;> simp [nodeEntries, Node.operands, ha, hn, own, taken, he, hs]

theorem nodeEntries_binary {parent i j : Nat} {op : Operator}
    (hp : t.nodes[parent]? = some (.binary op i j)) (ha : holeAt? t.nodes i = a.name?)
    (hb : holeAt? t.nodes j = b.name?) :
    nodeEntries t σ (.binary op i j) parent = own σ i a ++ own σ j b := by
  have ht : t.isTranspose parent = false := by simp [isTranspose, hp]
  have h := bind_entry?_eq σ 0 hp rfl ht ha
  have h' := bind_entry?_eq σ 1 hp rfl ht hb
  simp only [nodeEntries, Node.operands, List.zipIdx_cons, List.zipIdx_nil, List.filterMap_cons, h,
    h', Nat.zero_add, own, List.filterMap_nil]
  cases taken σ a <;> cases taken σ b <;> rfl

theorem own_eq (e : Expr S) : own σ (start + e.size - 1) e = own σ start e := by
  cases h : taken σ e with
  | none => simp [own, h]
  | some x => rw [size_of_taken h, Nat.add_sub_cancel]

theorem fillings_perm_binary {op : Operator}
    (hl : Lies t.nodes start (onBinary start op (layout start a) (layout (start + a.size) b)))
    (iha : Lies t.nodes start (layout start a) →
      (listEntries t σ start (layout start a) ++ own σ start a).Perm (fillings σ start a))
    (ihb : Lies t.nodes (start + a.size) (layout (start + a.size) b) →
      (listEntries t σ (start + a.size) (layout (start + a.size) b) ++
        own σ (start + a.size) b).Perm (fillings σ (start + a.size) b)) :
    (listEntries t σ start (onBinary start op (layout start a) (layout (start + a.size) b))).Perm
      (fillings σ start a ++ fillings σ (start + a.size) b) := by
  unfold onBinary at hl ⊢
  obtain ⟨hab, hn⟩ := hl.append
  obtain ⟨ha, hb⟩ := hab.append
  simp only [List.length_append, length_layout] at hb hn ⊢
  rw [listEntries_append, listEntries_append, listEntries_singleton]
  simp only [List.length_append, length_layout]
  rw [nodeEntries_binary hn.head (holeAt?_layout ha) (holeAt?_layout hb), own_eq, own_eq]
  refine .trans ?_ ((iha ha).append (ihb hb))
  simp only [List.append_assoc]
  refine List.Perm.append_left _ ?_
  rw [← List.append_assoc, ← List.append_assoc]
  exact List.perm_append_comm.append_right _

theorem fillings_perm_unary {op : Unary} (hop : op ≠ .transpose)
    (hl : Lies t.nodes start (onUnary start op (layout start a)))
    (iha : Lies t.nodes start (layout start a) →
      (listEntries t σ start (layout start a) ++ own σ start a).Perm (fillings σ start a)) :
    (listEntries t σ start (onUnary start op (layout start a))).Perm (fillings σ start a) := by
  unfold onUnary at hl ⊢
  obtain ⟨ha, hn⟩ := hl.append
  rw [length_layout] at hn
  rw [listEntries_append, listEntries_singleton, length_layout,
    nodeEntries_unary hop hn.head (holeAt?_layout ha), own_eq]
  exact iha ha

theorem fillings_perm_transpose
    (hl : Lies t.nodes start (onUnary start .transpose (layout start a)))
    (iha : Lies t.nodes start (layout start a) →
      (listEntries t σ start (layout start a) ++ own σ start a).Perm (fillings σ start a)) :
    (listEntries t σ start (onUnary start .transpose (layout start a))).Perm
      (fillings σ start (.transpose a)) := by
  unfold onUnary at hl ⊢
  obtain ⟨ha, hn⟩ := hl.append
  rw [length_layout] at hn
  rw [listEntries_append, listEntries_singleton, length_layout,
    nodeEntries_transpose hn.head (holeAt?_layout ha), fillings]
  split
  case h_1 inner ht =>
    obtain ⟨name, hlay⟩ := layout_of_taken start ht
    simp [hlay, listEntries, nodeEntries, Node.operands]
  case h_2 =>
    rw [own_eq]
    exact iha ha

/-- The entries collected node by node are those of the recursion. -/
theorem fillings_perm (σ : Assignment S) (e : Expr S) (hl : Lies t.nodes start (layout start e)) :
    (listEntries t σ start (layout start e) ++ own σ start e).Perm (fillings σ start e) := by
  have own_nil : ∀ {x : Expr S} {k : Nat}, x.name? = none → own σ k x = [] := by
    intro x k hx
    simp [own, taken_eq_none hx]
  induction e generalizing start with
  | var name | scalarVar name => simp [layout, listEntries, nodeEntries, Node.operands, fillings]
  | literal | null =>
    rw [own_nil rfl]
    simp [layout, listEntries, nodeEntries, Node.operands, fillings]
  | differential a ih | trace a ih =>
    rw [own_nil rfl, List.append_nil]
    exact fillings_perm_unary (by decide) hl ih
  | transpose a ih =>
    rw [own_nil rfl, List.append_nil]
    exact fillings_perm_transpose hl ih
  | add a b iha ihb | sub a b iha ihb | scale a b iha ihb | matMul a b iha ihb =>
    rw [own_nil rfl, List.append_nil]
    exact fillings_perm_binary hl iha ihb

end Entry

theorem lies_layout (r : Expr S) : Lies (ofExpr r).nodes 0 (layout 0 r) := by
  intro k _
  simp [ofExpr]

theorem entries_perm (r : Expr S) (σ : Assignment S) :
    ((ofExpr r).places.filterMap (Template.entry? (ofExpr r) σ)).Perm (fillings σ 0 r) := by
  refine .trans (.of_eq ?_) (fillings_perm σ r (lies_layout r))
  have hsize : (ofExpr r).nodes.size = r.size := by simp [ofExpr, length_layout]
  have hroot : holeAt? (ofExpr r).nodes ((ofExpr r).nodes.size - 1) = r.name? := by
    have := holeAt?_layout (lies_layout r)
    rwa [Nat.zero_add, ← hsize] at this
  have hplaces : (ofExpr r).places = findPlaces (ofExpr r).nodes := rfl
  rw [hplaces, findPlaces, List.filterMap_append, hroot]
  congr 1
  · simp only [listEntries, nodeEntries, List.filterMap_flatMap, List.filterMap_filterMap,
      Option.bind_map]
    rfl
  · cases hn : r.name? with
    | none => simp [own, taken, hn]
    | some name =>
      have h1 : r.size = 1 := by cases r <;> simp_all [Expr.name?, Expr.size]
      cases hs : σ.get? name <;> simp [own, taken, hn, hs, entry?, indexOf?, hsize, h1]

variable [Scalar S]

/-- A replacement filled in through its template is the replacement with its variables
substituted. -/
theorem fill_ofExpr (r : Expr S) (σ : Assignment S) : (ofExpr r).fill σ = r.subst σ := by
  have hperm := entries_perm r σ
  have hlookup : ∀ k, ((ofExpr r).places.filterMap (Template.entry? (ofExpr r) σ)).reverse.lookup k =
      (fillings σ 0 r).lookup k := fun k =>
    (lookup_perm (hperm.symm.trans (List.reverse_perm _).symm) (nodup_fillings σ 0 r) k).symm
  have h := buildAll_layout r Array.size_empty fun k _ _ => hlookup k
  have hnodes : (ofExpr r).nodes.toList = layout 0 r := rfl
  simp only [fill, hnodes, Array.back?_eq_getElem?, h.size_eq, h.last, Option.getD_some]

end TraceCalculus.Template
