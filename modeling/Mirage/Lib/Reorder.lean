import Mathlib.Data.List.Nodup
import Mathlib.Data.List.Perm.Basic

/-!
# Reordering a table

A table whose entries are put in another order, the ones without a property in front of the
ones with it, and the table that says where each entry went.

* `mergeSort_flag`: the stable sort by a flag is the entries without it and then those with it,
  both in the order they had;
* `places_get`: the places of the entries.
-/

namespace Mirage

variable {α : Type}

/-- A list in which no entry with a property is in front of one without is made of the two. -/
theorem eq_filter_append {p : α → Bool} {l : List α}
    (h : l.Pairwise fun a b => (!(!p b && p a)) = true) :
    l = l.filter (fun a => !p a) ++ l.filter p := by
  induction h with
  | nil => rfl
  | @cons a l ha _ ih =>
    rcases hp : p a
    · rw [List.filter_cons_of_pos (by simp [hp]), List.filter_cons_of_neg (by simp [hp]),
        List.cons_append, ← ih]
    · have hall : ∀ b ∈ l, p b = true := fun b hb => by
        have := ha b hb
        rw [hp] at this
        simpa using this
      have hnone : l.filter (fun a => !p a) = [] :=
        List.filter_eq_nil_iff.2 fun b hb => by simp [hall b hb]
      rw [List.filter_cons_of_neg (by simp [hp]), List.filter_cons_of_pos hp, hnone,
        List.filter_eq_self.2 hall, List.nil_append]

/-- The stable sort by a flag. -/
theorem mergeSort_flag (p : α → Bool) (l : List α) :
    l.mergeSort (fun a b => !(!p b && p a)) = l.filter (fun a => !p a) ++ l.filter p := by
  have htrans : ∀ a b c, (!(!p b && p a)) = true → (!(!p c && p b)) = true →
      (!(!p c && p a)) = true := by
    intro a b c
    cases p a <;> cases p b <;> cases p c <;> simp
  have htotal : ∀ a b, (!(!p b && p a) || !(!p a && p b)) = true := by
    intro a b
    cases p a <;> cases p b <;> rfl
  have hperm := List.mergeSort_perm l fun a b => !(!p b && p a)
  have hsub : ∀ q : α → Bool, (∀ a b, q a = true → q b = true → (!(!p b && p a)) = true) →
      (l.mergeSort fun a b => !(!p b && p a)).filter q = l.filter q := by
    intro q hq
    have hpairwise : (l.filter q).Pairwise fun a b => (!(!p b && p a)) = true :=
      List.pairwise_of_forall_mem_list fun a ha b hb =>
        hq a b (List.mem_filter.1 ha).2 (List.mem_filter.1 hb).2
    have h := (List.sublist_mergeSort htrans htotal hpairwise List.filter_sublist).filter q
    rw [List.filter_filter, List.filter_congr (q := q) fun a _ => Bool.and_self (q a)] at h
    exact (h.eq_of_length (hperm.filter q).length_eq.symm).symm
  rw [eq_filter_append (List.pairwise_mergeSort htrans htotal l)]
  rw [hsub (fun a => !p a) fun a b ha hb => by simp_all, hsub p fun a b ha hb => by simp_all]

section

variable {β : Type} (f : Nat → β)

/-- The table of the places of an order: the place of its `i`-th entry is `f i`. -/
def places (order : List Nat) (k : Nat) (table : List β) : List β :=
  (order.zipIdx k).foldl (fun table r => table.set r.1 (f r.2)) table

variable {f} {order : List Nat} {k i j : Nat} {table : List β}

theorem places_cons (j : Nat) :
    places f (j :: order) k table = places f order (k + 1) (table.set j (f k)) := rfl

theorem places_get_of_notMem (h : j ∉ order) : (places f order k table)[j]? = table[j]? := by
  induction order generalizing k table with
  | nil => rfl
  | cons m order ih =>
    obtain ⟨hne, hrest⟩ := not_or.1 (mt List.mem_cons.2 h)
    rw [places_cons, ih hrest, List.getElem?_set_ne (Ne.symm hne)]

/-- The places of the entries of an order. -/
theorem places_get (hnodup : order.Nodup) (h : order[i]? = some j) (hj : j < table.length) :
    (places f order k table)[j]? = some (f (k + i)) := by
  induction order generalizing k table i with
  | nil => cases h
  | cons m order ih =>
    obtain ⟨hm, hnodup⟩ := List.nodup_cons.1 hnodup
    rw [places_cons]
    rcases i with _ | i
    · obtain rfl : m = j := Option.some.inj h
      rw [places_get_of_notMem hm, List.getElem?_set_self hj, Nat.add_zero]
    · rw [List.getElem?_cons_succ] at h
      rw [ih hnodup h (by rwa [List.length_set]), Nat.add_assoc, Nat.add_comm 1 i]

end

end Mirage
