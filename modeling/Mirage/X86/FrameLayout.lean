import Mathlib.Data.List.Pairwise
import Mirage.X86.Frame

/-!
# Cells of the frame

The cells of the frame lie below the frame pointer, inside the frame, and do not
overlap: `offsetOf_bounds`, `offsetOf_apart`. Both follow from one fact about
`placeCells`: every cell lies below the ones placed before it (`placeCells_pairwise`).
-/

namespace Mirage.X86.Ctx

variable {c : Ctx}

/-! ## Placing cells -/

/-- A cell with a sensible size and alignment. -/
def Cell.Proper (cell : Cell) : Prop := 0 < cell.size ∧ 0 < cell.align

/-- A cell extends the frame by its size at least. -/
theorem le_placeCell {offset : Int} {cell : Cell} (h : cell.Proper) (ho : 0 ≤ offset) :
    offset + cell.size ≤ placeCell offset cell := by
  obtain ⟨hs, ha⟩ := h
  rw [placeCell, Int.tdiv_eq_ediv_of_nonneg (by omega)]
  have h1 := Int.emod_add_mul_ediv (offset + cell.size + cell.align - 1) cell.align
  have h2 := Int.emod_lt_of_pos (offset + cell.size + cell.align - 1) ha
  rw [Int.mul_comm] at h1
  omega

theorem le_foldl_placeCell {cells : List Cell} (h : ∀ cell ∈ cells, cell.Proper) {offset : Int}
    (ho : 0 ≤ offset) : offset ≤ cells.foldl placeCell offset := by
  induction cells generalizing offset with
  | nil => exact le_refl _
  | cons cell cells ih =>
    have hp := h cell List.mem_cons_self
    have hle := le_placeCell hp ho
    have hpos := hp.1
    exact le_trans (by omega)
      (ih (fun cell' hc => h cell' (List.mem_cons_of_mem _ hc)) (by omega))

/-- The cells placed from an extent on lie below it, inside the final extent. -/
theorem placeCells_bounds {cells : List Cell} (h : ∀ cell ∈ cells, cell.Proper) {offset : Int}
    (ho : 0 ≤ offset) {cell : Cell} {off : Int}
    (hp : (cell, off) ∈ cells.zip ((placeCells offset cells).map Prod.snd)) :
    off + cell.size ≤ -offset ∧ -(cells.foldl placeCell offset) ≤ off := by
  induction cells generalizing offset with
  | nil => simp at hp
  | cons cell' cells ih =>
    have hproper := h cell' List.mem_cons_self
    have hrest : ∀ cell ∈ cells, cell.Proper := fun cell hc => h cell (List.mem_cons_of_mem _ hc)
    have hle := le_placeCell hproper ho
    have hpos := hproper.1
    have hfold := le_foldl_placeCell hrest (show 0 ≤ placeCell offset cell' by omega)
    simp only [placeCells, List.map_cons, List.zip_cons_cons, List.mem_cons, Prod.mk.injEq] at hp
    rcases hp with ⟨rfl, rfl⟩ | hp
    · exact ⟨by omega, by rw [List.foldl_cons]; omega⟩
    · obtain ⟨h1, h2⟩ := ih hrest (show 0 ≤ placeCell offset cell' by omega) hp
      exact ⟨by omega, h2⟩

/-- A cell lies below the ones placed before it. -/
theorem placeCells_pairwise {cells : List Cell} (h : ∀ cell ∈ cells, cell.Proper) {offset : Int}
    (ho : 0 ≤ offset) :
    (cells.zip ((placeCells offset cells).map Prod.snd)).Pairwise
      fun p q => q.2 + q.1.size ≤ p.2 := by
  induction cells generalizing offset with
  | nil => exact .nil
  | cons cell cells ih =>
    have hproper := h cell List.mem_cons_self
    have hrest : ∀ cell ∈ cells, cell.Proper := fun cell hc => h cell (List.mem_cons_of_mem _ hc)
    have hle := le_placeCell hproper ho
    have hpos := hproper.1
    simp only [placeCells, List.map_cons, List.zip_cons_cons]
    refine List.pairwise_cons.2 ⟨fun q hq => ?_, ih hrest (by omega)⟩
    exact (placeCells_bounds hrest (by omega) hq).1

theorem placeCells_keys (cells : List Cell) (offset : Int) :
    (placeCells offset cells).map Prod.fst = cells.map Cell.key := by
  induction cells generalizing offset with
  | nil => rfl
  | cons cell cells ih => simp only [placeCells, List.map_cons, ih]

/-! ## The cells of a function -/

theorem cells_proper (c : Ctx) : ∀ cell ∈ c.cells, cell.Proper := by
  intro cell hcell
  have h8 : ∀ key, Cell.Proper { key := key } := fun key =>
    ⟨show (0 : Int) < 8 by decide, show (0 : Int) < 1 by decide⟩
  simp only [cells, List.mem_append, List.mem_map, List.mem_flatMap] at hcell
  rcases hcell with (((((⟨r, -, rfl⟩ | ⟨s, -, rfl⟩) | ⟨k, -, rfl⟩) | ⟨b, -, p, -, rfl⟩) | h) | h) | h
  · exact h8 _
  · exact ⟨by simp only; omega, by simp only; omega⟩
  · exact h8 _
  · exact h8 _
  · split_ifs at h
    · rw [List.mem_singleton.1 h]; exact h8 _
    · simp at h
  · split_ifs at h
    · simp only [List.mem_cons, List.not_mem_nil, or_false] at h
      rcases h with rfl | rfl <;> exact h8 _
    · simp at h
  · split_ifs at h
    · rw [List.mem_singleton.1 h]; exact h8 _
    · simp at h

/-- The frame has a cell for the key, of the given size. -/
def HasCell (c : Ctx) (key : CellKey) (size : Int) : Prop :=
  ∃ cell ∈ c.cells, cell.key = key ∧ ∀ cell' ∈ c.cells, cell'.key = key → cell'.size = size

/-- The offset of a key is the offset of one of the cells placed for it. -/
theorem exists_placed {key : CellKey} {size : Int} (h : c.HasCell key size) :
    ∃ cell, (cell, c.offsetOf key) ∈ c.cells.zip ((placeCells 0 c.cells).map Prod.snd) ∧
      cell.key = key ∧ cell.size = size := by
  obtain ⟨cell, hcell, hkey, hsize⟩ := h
  -- pair the cells with their placed entries
  have hlen : (placeCells 0 c.cells).length = c.cells.length := by
    have := congrArg List.length (placeCells_keys c.cells 0)
    simpa using this
  have hmem : key ∈ (placeCells 0 c.cells).map Prod.fst := by
    rw [placeCells_keys]
    exact List.mem_map.2 ⟨cell, hcell, hkey⟩
  have hne : (placeCells 0 c.cells).filter (·.1 = key) ≠ [] := by
    obtain ⟨e, he, hek⟩ := List.mem_map.1 hmem
    exact List.ne_nil_of_mem (List.mem_filter.2 ⟨he, by simpa using hek⟩)
  have hlast := List.getLast_mem hne
  rw [List.mem_filter, decide_eq_true_eq] at hlast
  obtain ⟨hlast, hlastKey⟩ := hlast
  have hoff : c.offsetOf key =
      (((placeCells 0 c.cells).filter fun e => decide (e.1 = key)).getLast hne).2 := by
    rw [offsetOf, List.getLast?_eq_some_getLast hne]
    rfl
  obtain ⟨i, hi, heq⟩ := List.mem_iff_getElem.1 hlast
  have hi' : i < c.cells.length := by rw [← hlen]; exact hi
  have hcellKey : (c.cells[i]).key = key := by
    have h1 : ((placeCells 0 c.cells).map Prod.fst)[i]? = (c.cells.map Cell.key)[i]? := by
      rw [placeCells_keys]
    rw [List.getElem?_map, List.getElem?_map, List.getElem?_eq_getElem hi,
      List.getElem?_eq_getElem hi', heq] at h1
    rw [← Option.some.inj h1, hlastKey]
  refine ⟨c.cells[i], ?_, hcellKey, hsize _ (List.getElem_mem hi') hcellKey⟩
  rw [List.mem_iff_getElem]
  refine ⟨i, by simp [hi', hi], ?_⟩
  simp only [List.getElem_zip, List.getElem_map, heq, hoff]

/-- A cell lies inside the frame. -/
theorem offsetOf_bounds {key : CellKey} {size : Int} (h : c.HasCell key size) :
    -c.frameSize ≤ c.offsetOf key ∧ c.offsetOf key + size ≤ 0 := by
  obtain ⟨cell, hp, -, rfl⟩ := exists_placed h
  obtain ⟨h1, h2⟩ := placeCells_bounds c.cells_proper (le_refl 0) hp
  have hfold := le_foldl_placeCell c.cells_proper (le_refl 0)
  have hframe : c.cells.foldl placeCell 0 ≤ c.frameSize := by
    rw [frameSize, Int.tdiv_eq_ediv_of_nonneg (by omega)]
    omega
  omega

/-- The cells of different keys do not overlap. -/
theorem offsetOf_apart {key key' : CellKey} {size size' : Int} (h : c.HasCell key size)
    (h' : c.HasCell key' size') (hne : key ≠ key') :
    c.offsetOf key + size ≤ c.offsetOf key' ∨ c.offsetOf key' + size' ≤ c.offsetOf key := by
  obtain ⟨cell, hp, hk, rfl⟩ := exists_placed h
  obtain ⟨cell', hp', hk', rfl⟩ := exists_placed h'
  have hpair := placeCells_pairwise c.cells_proper (le_refl 0)
  have hpne : (cell, c.offsetOf key) ≠ (cell', c.offsetOf key') := by
    intro heq
    exact hne (by rw [← hk, ← hk', (Prod.mk.inj heq).1])
  have hsymm : Std.Symm fun p q : Cell × Int => q.2 + q.1.size ≤ p.2 ∨ p.2 + p.1.size ≤ q.2 :=
    ⟨fun _ _ h => h.symm⟩
  have := (hpair.imp (S := fun p q : Cell × Int => q.2 + q.1.size ≤ p.2 ∨ p.2 + p.1.size ≤ q.2) .inl).forall
    hp hp' hpne
  exact this.symm

/-! ## The 8-byte cells -/

/-- Every cell that is not a slot has eight bytes. -/
theorem size_of_not_slot {cell : Cell} (h : cell ∈ c.cells) (hslot : ∀ i, cell.key ≠ .slot i) :
    cell.size = 8 := by
  simp only [cells, List.mem_append, List.mem_map, List.mem_flatMap] at h
  rcases h with (((((⟨r, -, rfl⟩ | ⟨s, -, rfl⟩) | ⟨k, -, rfl⟩) | ⟨b, -, p, -, rfl⟩) | h) | h) | h
  · rfl
  · exact absurd rfl (hslot s.2)
  · rfl
  · rfl
  · split_ifs at h
    · rw [List.mem_singleton.1 h]
    · simp at h
  · split_ifs at h
    · simp only [List.mem_cons, List.not_mem_nil, or_false] at h
      rcases h with rfl | rfl <;> rfl
    · simp at h
  · split_ifs at h
    · rw [List.mem_singleton.1 h]
    · simp at h

theorem hasCell_of_mem {key : CellKey} (hslot : ∀ i, key ≠ .slot i) (cell : Cell)
    (h : cell ∈ c.cells) (hk : cell.key = key) : c.HasCell key 8 :=
  ⟨cell, h, hk, fun _ h' hk' => size_of_not_slot h' fun i => hk' ▸ hslot i⟩

theorem hasCell_area {k : Nat} (h : k < c.ra.spillAreaCount) : c.HasCell (.area k) 8 := by
  refine hasCell_of_mem (fun i => by simp) { key := .area k } ?_ rfl
  simp only [cells, List.mem_append, List.mem_map, List.mem_range]
  exact .inl (.inl (.inl (.inl (.inr ⟨k, h, rfl⟩))))

theorem hasCell_calleeSave {r : Reg} (h : r ∈ calleeSavedRegs) (hr : r ∈ c.ra.usedCalleeSaved) :
    c.HasCell (.calleeSave r) 8 := by
  refine hasCell_of_mem (fun i => by simp) { key := .calleeSave r } ?_ rfl
  simp only [cells, List.mem_append, List.mem_map, List.mem_filter, decide_eq_true_eq]
  exact .inl (.inl (.inl (.inl (.inl (.inl ⟨r, ⟨h, hr⟩, rfl⟩)))))

theorem hasCell_staging {block : Block} (hb : block ∈ c.fn.blocks) {param : ValueId}
    (hp : param ∈ block.params) : c.HasCell (.staging param) 8 := by
  refine hasCell_of_mem (fun i => by simp) { key := .staging param } ?_ rfl
  simp only [cells, List.mem_append, List.mem_map, List.mem_flatMap]
  exact .inl (.inl (.inl (.inr ⟨block, hb, param, hp, rfl⟩)))

theorem hasCell_cretStash (h : c.callsTwoWordRet = true) : c.HasCell .cretStash 8 := by
  refine hasCell_of_mem (fun i => by simp) { key := .cretStash } ?_ rfl
  simp only [cells, List.mem_append, h, if_true, List.mem_singleton]
  exact .inl (.inl (.inr trivial))

end Mirage.X86.Ctx
