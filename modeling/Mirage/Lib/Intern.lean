import Mathlib.Data.List.Nodup
import Mathlib.Data.List.Sort

/-!
# Interning

An interning table is a list that only grows. An entry is known by its index, and two entries
never have the same key: asking for an entry whose key is there gives the index it has, and
any other is put at the end (`intern`).

Sorting a list and dropping repeated neighbours gives the same list for every list with the
same elements (`sortUnique_eq_iff`), so that such lists are keys of sets.
-/

namespace Mirage

section

variable {α κ : Type} [DecidableEq κ] (key : α → κ)

/-- The table with an entry, and the index of the entry. -/
def intern (table : List α) (a : α) : List α × Nat :=
  match table.findIdx? fun b => key b = key a with
  | some i => (table, i)
  | none => (table ++ [a], table.length)

variable {key} {table : List α} {a b : α} {i j : Nat}

/-- The entry is at its index. -/
theorem getElem?_intern (key : α → κ) (table : List α) (a : α) :
    ∃ b, (intern key table a).1[(intern key table a).2]? = some b ∧ key b = key a := by
  rw [intern]
  cases h : table.findIdx? fun b => key b = key a with
  | none => exact ⟨a, List.getElem?_concat_length, rfl⟩
  | some i =>
    obtain ⟨hi, hkey, -⟩ := List.findIdx?_eq_some_iff_getElem.1 h
    exact ⟨table[i], List.getElem?_eq_getElem hi, of_decide_eq_true hkey⟩

/-- The entries that are there keep their indices. -/
theorem getElem?_intern_of_getElem? (h : table[i]? = some b) :
    (intern key table a).1[i]? = some b := by
  rw [intern]
  split
  · exact h
  · rwa [List.getElem?_append_left (List.getElem?_eq_some_iff.1 h).1]

/-- No two entries have the same key. -/
theorem nodup_intern (h : (table.map key).Nodup) : ((intern key table a).1.map key).Nodup := by
  rw [intern]
  split
  · exact h
  · rename_i hnone
    rw [List.map_append, List.map_singleton]
    refine h.append (List.nodup_singleton _) (List.disjoint_singleton.2 fun hmem => ?_)
    obtain ⟨b, hb, hkey⟩ := List.mem_map.1 hmem
    have hne := List.findIdx?_eq_none_iff.1 hnone b hb
    exact absurd hkey (of_decide_eq_false hne)

omit [DecidableEq κ] in
theorem index_unique (h : (table.map key).Nodup) (hi : table[i]? = some a) (hj : table[j]? = some b)
    (hkey : key a = key b) : i = j := by
  have hi' : (table.map key)[i]? = some (key a) := by rw [List.getElem?_map, hi]; rfl
  have hj' : (table.map key)[j]? = some (key a) := by rw [List.getElem?_map, hj, hkey]; rfl
  have hlt : i < (table.map key).length := (List.getElem?_eq_some_iff.1 hi').1
  exact (List.getElem?_inj hlt h).1 (hi'.trans hj'.symm)

end

/-! ## Sets as sorted lists -/

section

variable {α : Type} [DecidableEq α]

/-- A list without an element that equals the one behind it. -/
def unique : List α → List α
  | a :: b :: l => if a = b then unique (b :: l) else a :: unique (b :: l)
  | l => l

theorem mem_unique (l : List α) (c : α) : c ∈ unique l ↔ c ∈ l := by
  induction l using unique.induct with
  | case1 a l ih =>
    rw [unique, if_pos rfl, ih]
    simp
  | case2 a b l h ih =>
    rw [unique, if_neg h, List.mem_cons, ih, ← List.mem_cons]
  | case3 l h =>
    rcases l with _ | ⟨a, _ | ⟨b, l⟩⟩
    · rfl
    · rfl
    · exact absurd rfl (h a b l)

variable (le : α → α → Prop) [DecidableRel le]

/-- The elements of a list in order, each once. -/
def sortUnique (l : List α) : List α := unique (l.insertionSort le)

theorem mem_sortUnique {l : List α} {c : α} : c ∈ sortUnique le l ↔ c ∈ l := by
  rw [sortUnique, mem_unique, List.mem_insertionSort]

variable [Std.Antisymm le]

omit [DecidableRel le] in
/-- In an ordered list without repeated neighbours no element is repeated. -/
theorem pairwise_unique {l : List α} (h : l.Pairwise le) :
    (unique l).Pairwise fun a b => le a b ∧ a ≠ b := by
  induction l using unique.induct with
  | case1 a l ih =>
    rw [unique, if_pos rfl]
    exact ih (List.pairwise_cons.1 h).2
  | case2 a b l hne ih =>
    obtain ⟨ha, hrest⟩ := List.pairwise_cons.1 h
    obtain ⟨hb, -⟩ := List.pairwise_cons.1 hrest
    rw [unique, if_neg hne]
    refine List.pairwise_cons.2 ⟨fun c hc => ?_, ih hrest⟩
    have hc' := (mem_unique _ c).1 hc
    refine ⟨ha c hc', ?_⟩
    rintro rfl
    rcases List.mem_cons.1 hc' with rfl | hc'
    · exact hne rfl
    · exact hne (antisymm (r := le) (ha b List.mem_cons_self) (hb a hc'))
  | case3 l hshort =>
    rcases l with _ | ⟨a, _ | ⟨b, l⟩⟩
    · exact .nil
    · exact List.pairwise_singleton _ a
    · exact absurd rfl (hshort a b l)

variable [Std.Total le] [IsTrans α le]

/-- Lists have the same normal form exactly when they have the same elements. -/
theorem sortUnique_eq_iff {l l' : List α} :
    sortUnique le l = sortUnique le l' ↔ ∀ c, c ∈ l ↔ c ∈ l' := by
  constructor
  · intro h c
    rw [← mem_sortUnique le, h, mem_sortUnique]
  · intro h
    have hirrefl : Std.Irrefl fun a b : α => le a b ∧ a ≠ b := ⟨fun a ha => ha.2 rfl⟩
    have hantisymm : Std.Antisymm fun a b : α => le a b ∧ a ≠ b :=
      ⟨fun a b hab hba => antisymm (r := le) hab.1 hba.1⟩
    refine List.Pairwise.eq_of_mem_iff (pairwise_unique le (List.pairwise_insertionSort le l))
      (pairwise_unique le (List.pairwise_insertionSort le l')) fun c => ?_
    exact (mem_sortUnique le).trans ((h c).trans (mem_sortUnique le).symm)

end

end Mirage
