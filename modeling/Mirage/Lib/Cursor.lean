import Mathlib.Data.List.Basic
import Mathlib.Tactic.Common

/-!
# Cursors in a text

A `Cursor` is a position in a text that knows its line and its column. These are kept up to date
as the cursor advances, and that they are right is part of the structure: whatever is built
from cursors by `advance` alone is at the position it says it is at.

* `Cursor.advanceWhile`: past the characters with a property;
* `Cursor.slice`: what is between two cursors.
-/

namespace Mirage

/-- The line of a position, from 1. -/
def lineAt (text : List Char) (pos : Nat) : Nat := (text.take pos).count '\n' + 1

/-- The column of a position: the characters since the last line feed, from 1. -/
def columnAt (text : List Char) (pos : Nat) : Nat :=
  ((text.take pos).reverse.takeWhile (· ≠ '\n')).length + 1

section Positions

variable {text : List Char} {pos : Nat} {ch : Char}

theorem take_succ_of_getElem? (h : text[pos]? = some ch) :
    text.take (pos + 1) = text.take pos ++ [ch] := by
  rw [List.take_add_one, h]
  rfl

theorem lineAt_succ (h : text[pos]? = some ch) :
    lineAt text (pos + 1) = if ch = '\n' then lineAt text pos + 1 else lineAt text pos := by
  rw [lineAt, lineAt, take_succ_of_getElem? h, List.count_append]
  split_ifs with hch
  · rw [hch]
    rfl
  · rw [List.count_singleton, if_neg (by simpa using hch)]

theorem columnAt_succ (h : text[pos]? = some ch) :
    columnAt text (pos + 1) = if ch = '\n' then 1 else columnAt text pos + 1 := by
  rw [columnAt, columnAt, take_succ_of_getElem? h, List.reverse_append]
  split_ifs with hch
  · simp [hch]
  · simp [hch]

/-- Lines and columns follow the order of the positions. -/
theorem lineAt_columnAt_lt {k : Nat} (hk : k < pos) (hpos : pos ≤ text.length) :
    lineAt text k < lineAt text pos ∨
      (lineAt text k = lineAt text pos ∧ columnAt text k < columnAt text pos) := by
  induction pos with
  | zero => omega
  | succ pos ih =>
    have hget : text[pos]? = some text[pos] := List.getElem?_eq_getElem _
    have hstep : lineAt text k = lineAt text pos ∧ columnAt text k ≤ columnAt text pos ∨
        lineAt text k < lineAt text pos := by
      rcases Nat.lt_succ_iff_lt_or_eq.mp hk with hlt | rfl
      · rcases ih hlt (by omega) with hline | ⟨hline, hcolumn⟩
        · exact .inr hline
        · exact .inl ⟨hline, Nat.le_of_lt hcolumn⟩
      · exact .inl ⟨rfl, Nat.le_refl _⟩
    rw [lineAt_succ hget, columnAt_succ hget]
    split_ifs
    · omega
    · omega

/-- A line and a column are those of one position only. -/
theorem eq_of_lineAt_columnAt {k : Nat} (hk : k ≤ text.length) (hpos : pos ≤ text.length)
    (hline : lineAt text k = lineAt text pos) (hcolumn : columnAt text k = columnAt text pos) :
    k = pos := by
  rcases Nat.lt_trichotomy k pos with hlt | heq | hgt
  · have := lineAt_columnAt_lt hlt hpos
    omega
  · exact heq
  · have := lineAt_columnAt_lt hgt hk
    omega

end Positions

/-- A position in a text with what is left of it. -/
structure Cursor (text : List Char) where
  rest : List Char
  pos : Nat
  line : Nat
  column : Nat
  pos_le : pos ≤ text.length
  rest_eq : text.drop pos = rest
  line_eq : line = lineAt text pos
  column_eq : column = columnAt text pos

namespace Cursor

variable {text : List Char}

def start (text : List Char) : Cursor text := ⟨text, 0, 1, 1, Nat.zero_le _, rfl, rfl, rfl⟩

theorem getElem?_of_cons {c : Cursor text} {ch : Char} {rest : List Char} (h : c.rest = ch :: rest) :
    text[c.pos]? = some ch := by
  rw [← List.head?_drop, c.rest_eq, h]
  rfl

theorem lt_length_of_cons {c : Cursor text} {ch : Char} {rest : List Char}
    (h : c.rest = ch :: rest) : c.pos < text.length :=
  (List.getElem?_eq_some_iff.mp (getElem?_of_cons h)).1

/-- The next character is passed. -/
def advance (c : Cursor text) : Cursor text :=
  match h : c.rest with
  | [] => c
  | ch :: rest => {
    rest
    pos := c.pos + 1
    line := if ch = '\n' then c.line + 1 else c.line
    column := if ch = '\n' then 1 else c.column + 1
    pos_le := lt_length_of_cons h
    rest_eq := by rw [← List.drop_drop, c.rest_eq, h]; rfl
    line_eq := by rw [lineAt_succ (getElem?_of_cons h), c.line_eq]
    column_eq := by rw [columnAt_succ (getElem?_of_cons h), c.column_eq] }

def atEnd (c : Cursor text) : Bool := c.rest.isEmpty

theorem advance_of_cons {c : Cursor text} {ch : Char} {rest : List Char} (h : c.rest = ch :: rest) :
    c.advance.rest = rest ∧ c.advance.pos = c.pos + 1 := by
  rw [advance]
  split
  · rename_i hnil
    rw [hnil] at h
    cases h
  · rename_i hcons
    rw [hcons] at h
    cases h
    exact ⟨rfl, rfl⟩

theorem pos_le_advance (c : Cursor text) : c.pos ≤ c.advance.pos := by
  cases h : c.rest with
  | nil =>
    rw [advance]
    split
    · exact Nat.le_refl _
    · exact Nat.le_succ _
  | cons ch rest =>
    rw [(advance_of_cons h).2]
    exact Nat.le_succ _

theorem pos_of_nil {c : Cursor text} (h : c.rest = []) : c.pos = text.length := by
  have := c.pos_le
  have := List.drop_eq_nil_iff.mp (c.rest_eq.trans h)
  omega

/-- What is left is shorter the further the cursor is. -/
theorem length_rest (c : Cursor text) : c.rest.length = text.length - c.pos := by
  rw [← c.rest_eq, List.length_drop]

theorem length_advance_lt {c : Cursor text} {ch : Char} {rest : List Char}
    (h : c.rest = ch :: rest) : c.advance.rest.length < c.rest.length := by
  rw [(advance_of_cons h).1, h]
  exact Nat.lt_succ_self _

theorem length_le_of_pos_le {c c' : Cursor text} (h : c.pos ≤ c'.pos) :
    c'.rest.length ≤ c.rest.length := by
  rw [length_rest, length_rest]
  omega

/-- Pass the characters with a property. -/
def advanceWhile (p : Char → Bool) (c : Cursor text) : Cursor text :=
  match _ : c.rest with
  | [] => c
  | ch :: _ => if p ch then advanceWhile p c.advance else c
termination_by c.rest.length
decreasing_by exact length_advance_lt ‹_›

theorem pos_le_advanceWhile (p : Char → Bool) (c : Cursor text) :
    c.pos ≤ (c.advanceWhile p).pos := by
  fun_induction advanceWhile p c with
  | case1 => exact Nat.le_refl _
  | case2 c _ _ _ _ ih => exact Nat.le_trans c.pos_le_advance ih
  | case3 => exact Nat.le_refl _

/-- The characters that are passed have the property. -/
theorem of_lt_advanceWhile {p : Char → Bool} {c : Cursor text} {k : Nat} (hk : c.pos ≤ k)
    (hlt : k < (c.advanceWhile p).pos) : ∃ ch, text[k]? = some ch ∧ p ch = true := by
  fun_induction advanceWhile p c with
  | case1 => omega
  | case2 c ch rest h hp ih =>
    by_cases heq : k = c.pos
    · exact ⟨ch, heq ▸ getElem?_of_cons h, hp⟩
    · refine ih ?_ hlt
      rw [(advance_of_cons h).2]
      omega
  | case3 => omega

/-- The cursor stops at the end or before a character without the property. -/
theorem rest_advanceWhile {p : Char → Bool} {c : Cursor text} {ch : Char} {rest : List Char}
    (h : (c.advanceWhile p).rest = ch :: rest) : p ch = false := by
  fun_induction advanceWhile p c with
  | case1 c hnil =>
    rw [hnil] at h
    cases h
  | case2 c _ _ _ _ ih => exact ih h
  | case3 c ch' rest' hcons hp =>
    rw [hcons] at h
    cases h
    simpa using hp

/-- If the next character has the property, it is passed. -/
theorem pos_advance_le_advanceWhile {p : Char → Bool} {c : Cursor text} {ch : Char}
    {rest : List Char} (h : c.rest = ch :: rest) (hp : p ch = true) :
    c.advance.pos ≤ (c.advanceWhile p).pos := by
  rw [advanceWhile]
  split
  · rename_i hnil
    rw [hnil] at h
    cases h
  · rename_i ch' rest' hcons
    rw [hcons] at h
    cases h
    rw [if_pos hp]
    exact pos_le_advanceWhile p _

/-- Pass at most `n` characters with a property. -/
def advanceAtMost (p : Char → Bool) : Nat → Cursor text → Cursor text
  | 0, c => c
  | n + 1, c => if c.rest.head?.any p then advanceAtMost p n c.advance else c

theorem pos_le_advanceAtMost (p : Char → Bool) (n : Nat) (c : Cursor text) :
    c.pos ≤ (c.advanceAtMost p n).pos := by
  induction n generalizing c with
  | zero => exact Nat.le_refl _
  | succ n ih =>
    rw [advanceAtMost]
    split
    · exact Nat.le_trans c.pos_le_advance (ih c.advance)
    · exact Nat.le_refl _

/-- The text between two cursors. -/
def slice (text : List Char) (start stop : Nat) : List Char := (text.drop start).take (stop - start)

theorem length_slice {start stop : Nat} (h : stop ≤ text.length) :
    (slice text start stop).length = stop - start := by
  rw [slice, List.length_take, List.length_drop]
  omega

theorem slice_cons {c : Cursor text} {ch : Char} {rest : List Char} (h : c.rest = ch :: rest)
    {stop : Nat} (hlt : c.pos < stop) :
    slice text c.pos stop = ch :: slice text c.advance.pos stop := by
  obtain ⟨hrest, hpos⟩ := advance_of_cons h
  rw [slice, slice, c.rest_eq, c.advance.rest_eq, hrest, h, hpos,
    show stop - c.pos = (stop - (c.pos + 1)) + 1 by omega, List.take_succ_cons]

/-- What is passed by a test has the property. -/
theorem of_mem_slice_advanceWhile {p : Char → Bool} {c : Cursor text} {ch : Char}
    (h : ch ∈ slice text c.pos (c.advanceWhile p).pos) : p ch = true := by
  obtain ⟨k, hk, hget⟩ := List.getElem_of_mem h
  rw [length_slice (c.advanceWhile p).pos_le] at hk
  obtain ⟨ch', hch', hp⟩ := of_lt_advanceWhile (Nat.le_add_right c.pos k)
    (show c.pos + k < (c.advanceWhile p).pos by omega)
  have hget' : (slice text c.pos (c.advanceWhile p).pos)[k]? = some ch :=
    List.getElem?_eq_some_iff.mpr ⟨_, hget⟩
  rw [slice, List.getElem?_take_of_lt hk, List.getElem?_drop, hch'] at hget'
  exact Option.some.inj hget' ▸ hp

end Cursor

end Mirage
