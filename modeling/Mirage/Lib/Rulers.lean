import Mathlib.Data.List.Basic
import Mathlib.Algebra.BigOperators.Group.List.Basic
import Mathlib.Algebra.Ring.Nat
import Mathlib.Tactic.Common

/-!
# Two measures of one text

The pieces of a text, each with its length on a first and on a second ruler, and what a
position on the first ruler is on the second one (`convert`): a position inside a piece counts
as the end of the piece, and behind the last piece the two rulers run on together.

* `convert_mono`: the conversion keeps the order of positions.
* `convert_swap`: at a mark, the end of a piece or a position behind the last one, converting
  back gives the position again.
* `convert_append`: the end of the first pieces is the sum of their lengths.
* `scan_first`, `scan_second`: a walk over the pieces that stops at a position of either ruler
  and adds up both lengths finds the conversion.
-/

namespace Mirage.Rulers

variable {l : List (Nat × Nat)} {x y u i : Nat}

/-- A position on the first ruler, on the second one. -/
def convert : List (Nat × Nat) → Nat → Nat
  | [], x => x
  | piece :: l, x => if x = 0 then 0 else piece.2 + convert l (x - piece.1)

/-- The pieces with the rulers exchanged. -/
def swap (l : List (Nat × Nat)) : List (Nat × Nat) := l.map Prod.swap

/-- A position between two pieces, or behind the last one. -/
def IsMark : List (Nat × Nat) → Nat → Prop
  | [], _ => True
  | piece :: l, x => x = 0 ∨ piece.1 ≤ x ∧ IsMark l (x - piece.1)

/-- Every piece has a length on both rulers. -/
def Solid (l : List (Nat × Nat)) : Prop := ∀ piece ∈ l, 0 < piece.1 ∧ 0 < piece.2

@[simp] theorem swap_swap (l : List (Nat × Nat)) : swap (swap l) = l := by
  rw [swap, swap, List.map_map]
  exact List.map_id'' Prod.swap_swap l

theorem Solid.swap (h : Solid l) : Solid (swap l) := by
  intro piece hpiece
  obtain ⟨piece', hpiece', rfl⟩ := List.mem_map.1 hpiece
  exact (h piece' hpiece').symm

@[simp] theorem convert_zero (l : List (Nat × Nat)) : convert l 0 = 0 := by
  cases l with
  | nil => rfl
  | cons piece l => exact if_pos rfl

/-- Positions keep their order. -/
theorem convert_mono (l : List (Nat × Nat)) (h : x ≤ y) : convert l x ≤ convert l y := by
  induction l generalizing x y with
  | nil => exact h
  | cons piece l ih =>
    rw [convert, convert]
    split_ifs with hx hy hy
    · exact Nat.le_refl _
    · exact Nat.zero_le _
    · omega
    · exact Nat.add_le_add_left (ih (Nat.sub_le_sub_right h _)) _

/-- At a mark the conversions are inverse to each other. -/
theorem convert_swap (hsolid : Solid l) (h : IsMark l x) : convert (swap l) (convert l x) = x := by
  induction l generalizing x with
  | nil => rfl
  | cons piece l ih =>
    obtain ⟨-, hpos⟩ := hsolid piece List.mem_cons_self
    have hrest := fun p hp => hsolid p (List.mem_cons_of_mem _ hp)
    obtain rfl | ⟨hle, hmark⟩ := h
    · rw [convert_zero, convert_zero]
    · rcases Nat.eq_zero_or_pos x with rfl | hx
      · rw [convert_zero, convert_zero]
      · rw [convert, if_neg (by omega)]
        show (if piece.2 + convert l (x - piece.1) = 0 then 0 else
          piece.1 + convert (swap l) (piece.2 + convert l (x - piece.1) - piece.2)) = x
        rw [if_neg (by omega), Nat.add_sub_cancel_left, ih hrest hmark]
        omega

/-- Behind the last piece every position is a mark. -/
theorem isMark_of_sum_le (h : (l.map Prod.fst).sum ≤ x) : IsMark l x := by
  induction l generalizing x with
  | nil => exact trivial
  | cons piece l ih =>
    rw [List.map_cons, List.sum_cons] at h
    exact .inr ⟨by omega, ih (by omega)⟩

/-- Inside a piece the conversion stays at its end. -/
theorem convert_succ (h : ¬IsMark l x) : convert l (x + 1) = convert l x := by
  induction l generalizing x with
  | nil => exact absurd trivial h
  | cons piece l ih =>
    obtain ⟨hx, hrest⟩ := not_or.1 h
    rw [convert, convert, if_neg hx, if_neg (Nat.succ_ne_zero x)]
    by_cases hle : piece.1 ≤ x
    · rw [Nat.sub_add_comm hle, ih fun hmark => hrest ⟨hle, hmark⟩]
    · rw [Nat.sub_eq_zero_of_le (by omega), Nat.sub_eq_zero_of_le (by omega)]

/-- The end of the first pieces. -/
theorem convert_append (l l' : List (Nat × Nat)) (hsolid : Solid l) :
    convert (l ++ l') (l.map Prod.fst).sum = (l.map Prod.snd).sum := by
  induction l with
  | nil => exact convert_zero l'
  | cons piece l ih =>
    obtain ⟨hpos, -⟩ := hsolid piece List.mem_cons_self
    rw [List.cons_append, convert, List.map_cons, List.map_cons, List.sum_cons, List.sum_cons,
      if_neg (by omega), Nat.add_sub_cancel_left,
      ih fun p hp => hsolid p (List.mem_cons_of_mem _ hp)]

/-! ## Walks -/

/-- A walk over the pieces while it is to go on, with both lengths added up. -/
def scan (going : Nat → Nat → Bool) : List (Nat × Nat) → Nat → Nat → Nat × Nat
  | [], u, i => (u, i)
  | piece :: l, u, i => if going u i then scan going l (u + piece.1) (i + piece.2) else (u, i)

theorem scan_swap (going : Nat → Nat → Bool) (l : List (Nat × Nat)) (u i : Nat) :
    scan going (swap l) u i = (scan (fun i u => going u i) l i u).swap := by
  induction l generalizing u i with
  | nil => rfl
  | cons piece l ih =>
    show (if going u i then scan going (swap l) (u + piece.2) (i + piece.1) else (u, i)) =
      (if going u i then scan (fun i u => going u i) l (i + piece.1) (u + piece.2) else (i, u)).swap
    split_ifs
    · exact ih _ _
    · rfl

/-- A walk up to a position of the first ruler. -/
theorem scan_first (l : List (Nat × Nat)) (x u i : Nat) :
    (scan (fun u _ => u < x) l u i).2 + (x - (scan (fun u _ => u < x) l u i).1) =
      i + convert l (x - u) := by
  induction l generalizing u i with
  | nil => rfl
  | cons piece l ih =>
    rw [scan, convert]
    by_cases h : u < x
    · rw [if_pos (by simpa using h), if_neg (by omega), ih, Nat.sub_add_eq]
      omega
    · rw [if_neg (by simpa using h), if_pos (by omega)]
      omega

/-- A walk up to a position of the second ruler. -/
theorem scan_second (l : List (Nat × Nat)) (x u i : Nat) :
    (scan (fun _ i => i < x) l u i).1 + (x - (scan (fun _ i => i < x) l u i).2) =
      u + convert (swap l) (x - i) := by
  have h := scan_first (swap l) x i u
  rwa [scan_swap] at h

/-- Where the pieces are not longer on the first ruler, neither is what is walked over. -/
theorem scan_fst_le (going : Nat → Nat → Bool) (h : ∀ piece ∈ l, piece.1 ≤ piece.2)
    (hle : u ≤ i) : (scan going l u i).1 ≤ (scan going l u i).2 := by
  induction l generalizing u i with
  | nil => exact hle
  | cons piece l ih =>
    have hpiece := h piece List.mem_cons_self
    rw [scan]
    split_ifs
    · exact ih (fun p hp => h p (List.mem_cons_of_mem _ hp)) (by omega)
    · exact hle

/-- A walk does not leave the text. -/
theorem scan_le (going : Nat → Nat → Bool) (l : List (Nat × Nat)) (u i : Nat) :
    (scan going l u i).1 ≤ u + (l.map Prod.fst).sum ∧
      (scan going l u i).2 ≤ i + (l.map Prod.snd).sum := by
  induction l generalizing u i with
  | nil => exact ⟨Nat.le_refl _, Nat.le_refl _⟩
  | cons piece l ih =>
    rw [scan, List.map_cons, List.map_cons, List.sum_cons, List.sum_cons]
    have := ih (u + piece.1) (i + piece.2)
    split_ifs
    · exact ⟨by omega, by omega⟩
    · exact ⟨Nat.le_add_right _ _, Nat.le_add_right _ _⟩

end Mirage.Rulers
