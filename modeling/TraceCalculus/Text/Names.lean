/-! # Sets of names

A set of names is kept as its members in ascending order of their characters, each once, so two
sets with the same members are the same list.
-/

set_option autoImplicit false

namespace TraceCalculus.Text

/-- A set of names: its members in ascending order, each once. -/
structure Names where
  toList : List String
  ordered : toList.Pairwise (· < ·)
  deriving DecidableEq

namespace Names

instance : EmptyCollection Names := ⟨⟨[], .nil⟩⟩

instance : Membership String Names := ⟨fun names name => name ∈ names.toList⟩

instance (name : String) (names : Names) : Decidable (name ∈ names) :=
  inferInstanceAs (Decidable (name ∈ names.toList))

/-- Puts a name in its place in an ascending list. -/
def place (name : String) : List String → List String
  | [] => [name]
  | other :: rest =>
    if name < other then name :: other :: rest
    else if name = other then other :: rest
    else other :: place name rest

/-- A name is added and the others stay. -/
theorem mem_place {name x : String} {names : List String} :
    x ∈ place name names ↔ x = name ∨ x ∈ names := by
  induction names with
  | nil => simp [place]
  | cons other rest ih =>
    simp only [place]
    split
    · simp
    · split
      · rename_i h
        simp [h]
      · simp only [List.mem_cons, ih]
        grind

theorem pairwise_place {name : String} {names : List String} (h : names.Pairwise (· < ·)) :
    (place name names).Pairwise (· < ·) := by
  induction names with
  | nil => exact List.pairwise_singleton _ _
  | cons other rest ih =>
    obtain ⟨hother, hrest⟩ := List.pairwise_cons.1 h
    simp only [place]
    split
    case isTrue hlt =>
      refine List.pairwise_cons.2 ⟨fun x hx => ?_, h⟩
      rcases List.mem_cons.1 hx with rfl | hx
      · exact hlt
      · exact String.lt_trans hlt (hother x hx)
    case isFalse hge =>
      split
      case isTrue => exact h
      case isFalse hne =>
        refine List.pairwise_cons.2 ⟨fun x hx => ?_, ih hrest⟩
        rcases mem_place.1 hx with rfl | hx
        · exact Std.lt_of_le_of_ne (String.not_lt.1 hge) (Ne.symm hne)
        · exact hother x hx

/-- Adds a name. -/
def insert (name : String) (names : Names) : Names :=
  ⟨place name names.toList, pairwise_place names.ordered⟩

/-- The set of the names in a list. -/
def ofList (names : List String) : Names := names.foldr insert ∅

theorem mem_insert {name x : String} {names : Names} :
    x ∈ insert name names ↔ x = name ∨ x ∈ names :=
  mem_place

theorem mem_ofList {x : String} {names : List String} : x ∈ (ofList names).toList ↔ x ∈ names := by
  induction names with
  | nil => rfl
  | cons name names ih =>
    change x ∈ insert name (ofList names) ↔ _
    rw [mem_insert, List.mem_cons, ← ih]
    rfl

end Names

end TraceCalculus.Text
