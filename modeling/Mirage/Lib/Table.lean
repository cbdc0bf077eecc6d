import Mathlib.Data.List.Basic

/-!
# Tables

A table is a list of keys with values. Its first entry for a key is the one that counts, so that
an entry is overwritten by a new one in front of it.
-/

namespace Mirage

variable {α β : Type} [BEq α] [LawfulBEq α] {table : List (α × β)} {key key' : α} {b : β}

theorem mem_of_lookup (h : table.lookup key = some b) : (key, b) ∈ table := by
  obtain ⟨before, after, rfl, -⟩ := List.lookup_eq_some_iff.mp h
  exact List.mem_append_right _ List.mem_cons_self

theorem lookup_cons_of_ne (h : key ≠ key') : ((key', b) :: table).lookup key = table.lookup key := by
  rw [List.lookup_cons, beq_eq_false_iff_ne.mpr h]

end Mirage
