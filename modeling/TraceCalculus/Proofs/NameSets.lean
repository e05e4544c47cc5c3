import Mathlib.Data.List.Perm.Basic
import Mathlib.Data.String.Basic
import TraceCalculus.Value.Environment

/-! # Sets of names by their members

Two sets of names with the same members are the same (`Text.Names.eq_of_mem_iff`). So the names that
have a value in an environment depend only on which variables have one (`Environment.names_eq`), and
so do the suggestions for a misspelt name.
-/

set_option autoImplicit false

namespace TraceCalculus

/-- A set of names is told by its members: two ascending lists of them are one list. -/
theorem Text.Names.eq_of_mem_iff {names names' : Text.Names}
    (h : ∀ x, x ∈ names ↔ x ∈ names') : names = names' := by
  obtain ⟨l, hl⟩ := names
  obtain ⟨l', hl'⟩ := names'
  have hperm : l.Perm l' :=
    (List.perm_ext_iff_of_nodup (hl.imp ne_of_lt) (hl'.imp ne_of_lt)).2 h
  obtain rfl : l = l' :=
    hperm.eq_of_pairwise (fun _ _ _ _ hxy hyx => absurd hyx (lt_asymm hxy)) hl hl'
  rfl

namespace Environment

variable {S T : Type} {env : Environment S} {env' : Environment T}

theorem mem_names {name : String} : name ∈ env.names ↔ (env.get? name).isSome = true := by
  rw [names, Text.Names.mem_ofList, get?, List.lookup_isSome_iff, List.mem_map]
  constructor
  · rintro ⟨entry, hentry, rfl⟩
    exact ⟨entry, hentry, beq_self_eq_true _⟩
  · rintro ⟨entry, hentry, heq⟩
    exact ⟨entry, hentry, (beq_iff_eq.1 heq).symm⟩

/-- The names do not depend on the order in which the values were given. -/
theorem names_eq (h : ∀ name, (env.get? name).isSome = (env'.get? name).isSome) :
    env.names = env'.names := by
  have hmem : ∀ name, name ∈ env.names ↔ name ∈ env'.names := by
    intro name
    rw [mem_names, mem_names, h]
  exact congrArg Text.Names.toList (Text.Names.eq_of_mem_iff hmem)

end Environment

end TraceCalculus
