import Mirage.X86.FrameLayout

/-!
# The regions of the frame

What the frame is for, and where it lies.

* `Region`, `HasRegion`, `regionSize`: the parts of a frame, with the bytes each must have.
  The blob of a two-word result takes two cells.
* `FrameBelow`: the frame is smaller than 2 GiB, so the sizes of the slots are what their
  32-bit casts are.
* `dvd_of_placed`: a cell lies at a multiple of its alignment.
* `regions_apart`, `region_bounds`, `slot_aligned`, `noOverflow`: the layout is sound.
-/

namespace Mirage.X86.Ctx

variable {c : Ctx}

/-- A part of the frame. -/
inductive Region
  | calleeSave (r : Reg)
  | slot (i : Nat)
  | area (k : Nat)
  | staging (param : ValueId)
  | cretStash
  | cretBlob
  | sretStash
  deriving DecidableEq

/-- The cell whose offset is the one of the region. -/
def Region.key : Region → CellKey
  | .calleeSave r => .calleeSave r
  | .slot i => .slot i
  | .area k => .area k
  | .staging param => .staging param
  | .cretStash => .cretStash
  | .cretBlob => .cretBlob
  | .sretStash => .sretStash

/-- The frame of the function has the region. -/
def HasRegion (c : Ctx) : Region → Prop
  | .calleeSave r => r ∈ calleeSavedRegs ∧ r ∈ c.ra.usedCalleeSaved
  | .slot i => i < c.fn.slots.length
  | .area k => k < c.ra.spillAreaCount
  | .staging param => ∃ block ∈ c.fn.blocks, param ∈ block.params
  | .cretStash => c.callsTwoWordRet = true
  | .cretBlob => c.ownSig.cRetWords = 2
  | .sretStash => c.ownSig.cSret = true

/-- The bytes of a region: 8, but for the slots and for the blob of a two-word result. -/
def regionSize (c : Ctx) : Region → Nat
  | .slot i => max 1 (c.fn.slots.getD i {}).size
  | .cretBlob => 16
  | _ => 8

/-- Where a region begins, from the frame pointer. -/
def regionOffset (c : Ctx) (r : Region) : Int := c.offsetOf r.key

/-- The frame is smaller than 2 GiB, and so is every slot with its alignment. -/
structure FrameBelow (c : Ctx) : Prop where
  size : ∀ slot ∈ c.fn.slots, slot.size < 2147483648
  align : ∀ slot ∈ c.fn.slots, slot.align < 2147483648
  frame : c.frameSize < 2147483648

/-- The sums of the layout fit 32 bits with a sign. -/
def NoOverflow (c : Ctx) : Prop :=
  (∀ before cell after, c.cells = before ++ cell :: after →
    before.foldl placeCell 0 + cell.size + cell.align - 1 < 2147483648) ∧
  c.cells.foldl placeCell 0 + 15 < 2147483648

/-! ## Placing cells -/

theorem align_dvd_placeCell (offset : Int) (cell : Cell) : cell.align ∣ placeCell offset cell :=
  Int.dvd_mul_left _ _

/-- A cell begins at a multiple of its alignment. -/
theorem dvd_of_placed {cells : List Cell} {offset : Int} {cell : Cell} {off : Int}
    (hp : (cell, off) ∈ cells.zip ((placeCells offset cells).map Prod.snd)) :
    cell.align ∣ off := by
  induction cells generalizing offset with
  | nil => simp at hp
  | cons cell' cells ih =>
    simp only [placeCells, List.map_cons, List.zip_cons_cons, List.mem_cons, Prod.mk.injEq] at hp
    rcases hp with ⟨rfl, rfl⟩ | hp
    · exact Int.dvd_neg.2 (align_dvd_placeCell _ _)
    · exact ih hp

theorem placeCells_append (before after : List Cell) (offset : Int) :
    placeCells offset (before ++ after) =
      placeCells offset before ++ placeCells (before.foldl placeCell offset) after := by
  induction before generalizing offset with
  | nil => rfl
  | cons cell before ih => simp only [List.cons_append, placeCells, List.foldl_cons, ih]

/-- The offset of a cell whose key is not placed again. -/
theorem offsetOf_split {before after : List Cell} {cell : Cell}
    (h : c.cells = before ++ cell :: after) (hlast : ∀ cell' ∈ after, cell'.key ≠ cell.key) :
    c.offsetOf cell.key = -placeCell (before.foldl placeCell 0) cell := by
  have hafter : (placeCells (placeCell (before.foldl placeCell 0) cell) after).filter
      (·.1 = cell.key) = [] := by
    refine List.filter_eq_nil_iff.2 fun e he => ?_
    have hmem := List.mem_map_of_mem (f := Prod.fst) he
    rw [placeCells_keys] at hmem
    obtain ⟨cell', hcell', hkey⟩ := List.mem_map.1 hmem
    simpa [← hkey] using hlast cell' hcell'
  rw [offsetOf, h, placeCells_append, List.filter_append, placeCells, List.filter_cons_of_pos
    (by simp), hafter, List.getLast?_append]
  rfl

theorem placeCell_eight (offset : Int) (key : CellKey) :
    placeCell offset { key := key } = offset + 8 := by
  show (offset + 8 + 1 - 1).tdiv 1 * 1 = offset + 8
  rw [Int.tdiv_one]
  omega

/-! ## The cells of a region -/

/-- The cell of a slot. -/
theorem slot_cell {cell : Cell} {i : Nat} (h : cell ∈ c.cells) (hkey : cell.key = .slot i) :
    ∃ slot, c.fn.slots[i]? = some slot ∧ cell.size = max 1 (BitVec.ofNat 32 slot.size).toInt ∧
      cell.align = max 1 (BitVec.ofNat 32 slot.align).toInt := by
  simp only [cells, List.mem_append, List.mem_map, List.mem_flatMap] at h
  rcases h with (((((⟨r, -, rfl⟩ | ⟨s, hs, rfl⟩) | ⟨k, -, rfl⟩) | ⟨b, -, p, -, rfl⟩) | h) | h) | h
  · cases hkey
  · obtain rfl := CellKey.slot.inj hkey
    exact ⟨s.1, List.mem_zipIdx_iff_getElem?.1 hs, rfl, rfl⟩
  · cases hkey
  · cases hkey
  · split_ifs at h
    · rw [List.mem_singleton.1 h] at hkey; cases hkey
    · simp at h
  · split_ifs at h
    · simp only [List.mem_cons, List.not_mem_nil, or_false] at h
      rcases h with rfl | rfl <;> cases hkey
    · simp at h
  · split_ifs at h
    · rw [List.mem_singleton.1 h] at hkey; cases hkey
    · simp at h

/-- A number below 2 GiB keeps its value when it gets a sign. -/
theorem toInt_ofNat_of_lt {n : Nat} (h : n < 2147483648) : (BitVec.ofNat 32 n).toInt = n := by
  rw [BitVec.toInt_ofNat', Int.bmod_eq_of_le (by omega) (by omega)]

theorem hasCell_slot (hbelow : c.FrameBelow) {i : Nat} (h : i < c.fn.slots.length) :
    c.HasCell (.slot i) (c.regionSize (.slot i)) := by
  have hget : c.fn.slots[i]? = some c.fn.slots[i] := List.getElem?_eq_getElem h
  have hsize : max 1 (BitVec.ofNat 32 c.fn.slots[i].size).toInt = c.regionSize (.slot i) := by
    rw [toInt_ofNat_of_lt (hbelow.size _ (List.getElem_mem h)), regionSize,
      List.getD_eq_getElem?_getD, hget, Option.getD_some]
    omega
  refine ⟨{ key := .slot i
            size := max 1 (BitVec.ofNat 32 c.fn.slots[i].size).toInt
            align := max 1 (BitVec.ofNat 32 c.fn.slots[i].align).toInt }, ?_, rfl, ?_⟩
  · simp only [cells, List.mem_append, List.mem_map]
    exact .inl (.inl (.inl (.inl (.inl (.inr
      ⟨(c.fn.slots[i], i), List.mem_zipIdx_iff_getElem?.2 hget, rfl⟩)))))
  · intro cell hcell hkey
    obtain ⟨slot, hslot, hcellSize, -⟩ := slot_cell hcell hkey
    rw [hget] at hslot
    rw [hcellSize, ← Option.some.inj hslot, hsize]

/-- Both cells of the blob of a two-word result, one above the other. -/
theorem cretBlob_cells (h : c.HasRegion .cretBlob) :
    c.HasCell .cretBlob 8 ∧ c.HasCell .cretBlobTop 8 ∧
      c.offsetOf .cretBlobTop = c.offsetOf .cretBlob + 8 := by
  have hwords : (c.ownSig.cRetWords == 2) = true := beq_iff_eq.2 h
  obtain ⟨before, after, hcells, hafter⟩ : ∃ before after, c.cells =
      before ++ { key := .cretBlobTop } :: { key := .cretBlob } :: after ∧
      ∀ cell ∈ after, cell.key = .sretStash := by
    have hafter : ∀ cell ∈ if c.ownSig.cSret then [({ key := .sretStash } : Cell)] else [],
        cell.key = .sretStash := by
      intro cell hcell
      split_ifs at hcell
      · rw [List.mem_singleton.1 hcell]
      · simp at hcell
    rw [cells, if_pos hwords, List.append_assoc]
    exact ⟨_, _, rfl, hafter⟩
  have htop := offsetOf_split hcells fun cell hcell => by
    rcases List.mem_cons.1 hcell with rfl | hcell
    · decide
    · rw [hafter cell hcell]; decide
  have hblob := @offsetOf_split c (before ++ [{ key := .cretBlobTop }]) after { key := .cretBlob }
    (by rw [hcells, List.append_assoc]; rfl) fun cell hcell => by
      rw [hafter cell hcell]; decide
  refine ⟨hasCell_of_mem (fun i => by simp) { key := .cretBlob } (by rw [hcells]; simp) rfl,
    hasCell_of_mem (fun i => by simp) { key := .cretBlobTop } (by rw [hcells]; simp) rfl, ?_⟩
  rw [placeCell_eight] at htop hblob
  rw [List.foldl_append, List.foldl_cons, List.foldl_nil, placeCell_eight] at hblob
  simp only at htop hblob
  omega

theorem hasCell_sretStash (h : c.HasRegion .sretStash) : c.HasCell .sretStash 8 := by
  refine hasCell_of_mem (fun i => by simp) { key := .sretStash } ?_ rfl
  have hsret : c.ownSig.cSret = true := h
  simp only [cells, List.mem_append, hsret, if_true, List.mem_singleton]
  exact .inr trivial

/-- A region other than the blob is a cell. -/
theorem hasCell_region (hbelow : c.FrameBelow) {r : Region} (h : c.HasRegion r)
    (hblob : r ≠ .cretBlob) : c.HasCell r.key (c.regionSize r) := by
  cases r with
  | calleeSave r => exact hasCell_calleeSave h.1 h.2
  | slot i => exact hasCell_slot hbelow h
  | area k => exact hasCell_area h
  | staging param =>
    obtain ⟨block, hblock, hparam⟩ := h
    exact hasCell_staging hblock hparam
  | cretStash => exact hasCell_cretStash h
  | cretBlob => exact absurd rfl hblob
  | sretStash => exact hasCell_sretStash h

/-! ## The layout -/

theorem key_injective {r r' : Region} (h : r.key = r'.key) : r = r' := by
  cases r <;> cases r' <;> cases h <;> rfl

theorem key_ne_cretBlobTop (r : Region) : r.key ≠ .cretBlobTop := by
  cases r <;> simp [Region.key]

theorem regionSize_pos (c : Ctx) (r : Region) : 0 < c.regionSize r := by
  cases r with
  | slot i => exact Nat.lt_of_lt_of_le Nat.one_pos (Nat.le_max_left ..)
  | _ => exact Nat.succ_pos _

/-- The blob does not overlap another region. -/
theorem blob_apart (hbelow : c.FrameBelow) {r : Region} (h : c.HasRegion r)
    (hblob : c.HasRegion .cretBlob) (hne : r ≠ .cretBlob) :
    c.regionOffset r + c.regionSize r ≤ c.regionOffset .cretBlob ∨
      c.regionOffset .cretBlob + 16 ≤ c.regionOffset r := by
  obtain ⟨hlow, hhigh, hoffset⟩ := cretBlob_cells hblob
  have hcell := hasCell_region hbelow h hne
  have hapart := offsetOf_apart hcell hlow fun heq => hne (key_injective heq)
  have hapart' := offsetOf_apart hcell hhigh (key_ne_cretBlobTop r)
  have hpos := regionSize_pos c r
  show c.offsetOf r.key + c.regionSize r ≤ c.offsetOf .cretBlob ∨
    c.offsetOf .cretBlob + 16 ≤ c.offsetOf r.key
  omega

/-- Regions do not overlap. -/
theorem regions_apart (hbelow : c.FrameBelow) {r r' : Region} (h : c.HasRegion r)
    (h' : c.HasRegion r') (hne : r ≠ r') :
    c.regionOffset r + c.regionSize r ≤ c.regionOffset r' ∨
      c.regionOffset r' + c.regionSize r' ≤ c.regionOffset r := by
  by_cases hblob : r = .cretBlob
  · subst hblob
    exact (blob_apart hbelow h' h (Ne.symm hne)).symm
  · by_cases hblob' : r' = .cretBlob
    · subst hblob'
      exact blob_apart hbelow h h' hne
    · exact offsetOf_apart (hasCell_region hbelow h hblob) (hasCell_region hbelow h' hblob')
        fun heq => hne (key_injective heq)

/-- Regions lie in the frame. -/
theorem region_bounds (hbelow : c.FrameBelow) {r : Region} (h : c.HasRegion r) :
    -c.frameSize ≤ c.regionOffset r ∧ c.regionOffset r + c.regionSize r ≤ 0 := by
  by_cases hblob : r = .cretBlob
  · subst hblob
    obtain ⟨hlow, hhigh, hoffset⟩ := cretBlob_cells h
    have hbounds := offsetOf_bounds hlow
    have hbounds' := offsetOf_bounds hhigh
    show -c.frameSize ≤ c.offsetOf .cretBlob ∧ c.offsetOf .cretBlob + 16 ≤ 0
    omega
  · exact offsetOf_bounds (hasCell_region hbelow h hblob)

theorem frameSize_dvd (c : Ctx) : 16 ∣ c.frameSize := Int.dvd_mul_left _ _

theorem foldl_le_frameSize (c : Ctx) : c.cells.foldl placeCell 0 ≤ c.frameSize := by
  have hfold := le_foldl_placeCell c.cells_proper (le_refl 0)
  rw [frameSize, Int.tdiv_eq_ediv_of_nonneg (by omega)]
  omega

/-! ## Alignment -/

/-- The alignment of the cell of a slot, when its cast is exact. -/
theorem slot_align (hbelow : c.FrameBelow) {cell : Cell} {i : Nat} (h : cell ∈ c.cells)
    (hkey : cell.key = .slot i) :
    ∃ slot, c.fn.slots[i]? = some slot ∧ cell.align = max 1 (slot.align : Int) := by
  obtain ⟨slot, hslot, -, halign⟩ := slot_cell h hkey
  rw [toInt_ofNat_of_lt (hbelow.align slot (List.mem_of_getElem? hslot))] at halign
  exact ⟨slot, hslot, halign⟩

/-- A slot lies at an offset that is a multiple of its alignment. -/
theorem align_dvd_offset (hbelow : c.FrameBelow) {i : Nat} {slot : Slot}
    (h : c.fn.slots[i]? = some slot) (hpos : 0 < slot.align) :
    (slot.align : Int) ∣ c.regionOffset (.slot i) := by
  have hlt : i < c.fn.slots.length := (List.getElem?_eq_some_iff.1 h).1
  obtain ⟨cell, hplaced, hkey, -⟩ := exists_placed (hasCell_slot hbelow hlt)
  obtain ⟨slot', hslot', halign⟩ := slot_align hbelow (List.of_mem_zip hplaced).1 hkey
  obtain rfl : slot = slot' := Option.some.inj (h.symm.trans hslot')
  have hdvd := dvd_of_placed hplaced
  rwa [halign, max_eq_right (by omega)] at hdvd

/-- A number that divides a position, an offset and the size of the address space divides
    the address. -/
theorem dvd_address {m : Nat} {rbp : BitVec 64} {off : Int} (hrbp : m ∣ rbp.toNat)
    (hoff : (m : Int) ∣ off) (hspace : m ∣ 2 ^ 64) :
    m ∣ (rbp + BitVec.ofInt 64 off).toNat := by
  have haddr : rbp + BitVec.ofInt 64 off = BitVec.ofInt 64 (rbp.toNat + off) := by
    rw [BitVec.ofInt_add, BitVec.ofInt_natCast, BitVec.ofNat_toNat, BitVec.setWidth_eq]
  have hsum : (m : Int) ∣ rbp.toNat + off := Int.dvd_add (Int.natCast_dvd_natCast.2 hrbp) hoff
  rw [haddr, BitVec.toNat_ofInt, ← Int.natCast_dvd_natCast,
    Int.toNat_of_nonneg (Int.emod_nonneg _ (by decide)), Int.emod_def]
  exact Int.dvd_sub hsum ((Int.natCast_dvd_natCast.2 hspace).mul_right _)

/-- A slot with a power of two as its alignment is aligned, up to 16 bytes, when the frame
    pointer is. -/
theorem slot_aligned (hbelow : c.FrameBelow) {i k : Nat} {slot : Slot}
    (h : c.fn.slots[i]? = some slot) (hpow : slot.align = 2 ^ k) {rbp : BitVec 64}
    (hrbp : 16 ∣ rbp.toNat) :
    min slot.align 16 ∣ (rbp + BitVec.ofInt 64 (c.regionOffset (.slot i))).toNat := by
  have hmin : min slot.align 16 = 2 ^ min k 4 := by
    rw [hpow]
    rcases le_total k 4 with hk | hk
    · rw [min_eq_left hk, min_eq_left (Nat.pow_le_pow_right (by decide) hk)]
    · rw [min_eq_right hk, min_eq_right (Nat.pow_le_pow_right (by decide) hk)]
  rw [hmin]
  refine dvd_address ((Nat.pow_dvd_pow 2 (min_le_right k 4)).trans hrbp) ?_
    (Nat.pow_dvd_pow 2 ((min_le_right k 4).trans (by decide)))
  refine (Int.natCast_dvd_natCast.2 ?_).trans
    (align_dvd_offset hbelow h (hpow ▸ Nat.pow_pos (by decide)))
  rw [hpow]
  exact Nat.pow_dvd_pow 2 (min_le_left k 4)

/-! ## 32-bit sums -/

/-- A cell is a slot, or it has no alignment of its own. -/
theorem align_or_slot {cell : Cell} (h : cell ∈ c.cells) :
    cell.align = 1 ∨ ∃ i, cell.key = .slot i := by
  simp only [cells, List.mem_append, List.mem_map, List.mem_flatMap] at h
  rcases h with (((((⟨r, -, rfl⟩ | ⟨s, -, rfl⟩) | ⟨k, -, rfl⟩) | ⟨b, -, p, -, rfl⟩) | h) | h) | h
  · exact .inl rfl
  · exact .inr ⟨s.2, rfl⟩
  · exact .inl rfl
  · exact .inl rfl
  · split_ifs at h
    · rw [List.mem_singleton.1 h]; exact .inl rfl
    · simp at h
  · split_ifs at h
    · simp only [List.mem_cons, List.not_mem_nil, or_false] at h
      rcases h with rfl | rfl <;> exact .inl rfl
    · simp at h
  · split_ifs at h
    · rw [List.mem_singleton.1 h]; exact .inl rfl
    · simp at h

/-- The alignments of the slots are small, or powers of two. -/
def AlignsOk (c : Ctx) : Prop :=
  ∀ slot ∈ c.fn.slots, slot.align ≤ 16 ∨ ∃ k, slot.align = 2 ^ k

theorem align_le_or_dvd (hbelow : c.FrameBelow) (haligns : c.AlignsOk) {cell : Cell}
    (h : cell ∈ c.cells) : cell.align ≤ 16 ∨ cell.align ∣ 2147483648 := by
  rcases align_or_slot h with halign | ⟨i, hkey⟩
  · exact .inl (by omega)
  · obtain ⟨slot, hslot, halign⟩ := slot_align hbelow h hkey
    have hmem := List.mem_of_getElem? hslot
    rcases haligns slot hmem with hle | ⟨k, hk⟩
    · exact .inl (by omega)
    · refine .inr ?_
      have hlt := hbelow.align slot hmem
      have hk31 : k ≤ 31 := by
        refine Nat.le_of_lt ((Nat.pow_lt_pow_iff_right (a := 2) (by decide)).1 ?_)
        exact hk ▸ hlt
      have hdvd : (2 ^ k : Nat) ∣ 2147483648 := Nat.pow_dvd_pow 2 hk31
      rw [halign, max_eq_right (by have := Nat.pow_pos (n := k) (show 0 < 2 by decide); omega), hk]
      exact Int.natCast_dvd_natCast.2 hdvd

/-- A multiple of a divisor of a bound, below the bound, is below it by the divisor. -/
theorem le_sub_of_dvd {a e n : Int} (ha : 0 < a) (he : a ∣ e) (hn : a ∣ n) (hlt : e < n) :
    e ≤ n - a := by
  obtain ⟨p, rfl⟩ := he
  obtain ⟨q, rfl⟩ := hn
  have hpq : p < q := Int.lt_of_mul_lt_mul_left hlt (Int.le_of_lt ha)
  calc a * p ≤ a * (q - 1) := Int.mul_le_mul_of_nonneg_left (by omega) (Int.le_of_lt ha)
    _ = a * q - a := by rw [Int.mul_sub, Int.mul_one]

/-- The sums of the layout do not overflow. -/
theorem noOverflow (hbelow : c.FrameBelow) (haligns : c.AlignsOk) : c.NoOverflow := by
  have htotal := c.foldl_le_frameSize
  have hframe := le_sub_of_dvd (by decide) c.frameSize_dvd (by decide) hbelow.frame
  refine ⟨fun before cell after hcells => ?_, by omega⟩
  have hmem : cell ∈ c.cells := by rw [hcells]; simp
  have hproper := c.cells_proper
  rw [hcells] at hproper
  have hbefore := le_foldl_placeCell
    (fun cell h => hproper cell (List.mem_append_left _ h)) (le_refl 0)
  have hcell := hproper cell (by simp)
  have hle := le_placeCell hcell hbefore
  have hafter := le_foldl_placeCell
    (fun cell h => hproper cell (List.mem_append_right _ (List.mem_cons_of_mem _ h)))
    (show 0 ≤ placeCell (before.foldl placeCell 0) cell by have := hcell.1; omega)
  rw [hcells, List.foldl_append, List.foldl_cons] at htotal
  rcases align_le_or_dvd hbelow haligns hmem with hsmall | hdvd
  · omega
  · have hextent := le_sub_of_dvd hcell.2 (align_dvd_placeCell (before.foldl placeCell 0) cell)
      hdvd (by omega)
    omega

/-- The layout of the frame is sound, for every function and allocation whose frame is below
    2 GiB: its regions do not overlap and lie in the frame, every slot is aligned, and the
    frame keeps the alignment of the stack. -/
theorem layoutFrame_sound (c : Ctx) (hbelow : c.FrameBelow) (haligns : c.AlignsOk) :
    (∀ r r', c.HasRegion r → c.HasRegion r' → r ≠ r' →
      c.regionOffset r + c.regionSize r ≤ c.regionOffset r' ∨
        c.regionOffset r' + c.regionSize r' ≤ c.regionOffset r) ∧
    (∀ r, c.HasRegion r →
      -c.frameSize ≤ c.regionOffset r ∧ c.regionOffset r + c.regionSize r ≤ 0) ∧
    (∀ i slot k (rbp : BitVec 64), c.fn.slots[i]? = some slot → slot.align = 2 ^ k →
      16 ∣ rbp.toNat →
      min slot.align 16 ∣ (rbp + BitVec.ofInt 64 (c.regionOffset (.slot i))).toNat) ∧
    16 ∣ c.frameSize ∧ c.NoOverflow :=
  ⟨fun _ _ h h' hne => regions_apart hbelow h h' hne, fun _ h => region_bounds hbelow h,
    fun _ _ _ _ h hpow hrbp => slot_aligned hbelow h hpow hrbp, c.frameSize_dvd,
    noOverflow hbelow haligns⟩

/-- A frame with two slots of different alignments, between other regions. -/
def sampleFrame : Ctx where
  module := { signatures := [{ cRetWords := 2 }] }
  fn := { slots := [{ size := 12, align := 8 }, { size := 4, align := 16 }]
          blocks := [{ params := [3] }] }
  ra := { spillAreaCount := 1, usedCalleeSaved := [.rbx] }

theorem layoutFrame_sound_sample :
    (sampleFrame.regionOffset (.slot 1) + 4 ≤ sampleFrame.regionOffset (.slot 0) ∨
      sampleFrame.regionOffset (.slot 0) + 12 ≤ sampleFrame.regionOffset (.slot 1)) ∧
    16 ∣ (4096 + BitVec.ofInt 64 (sampleFrame.regionOffset (.slot 1))).toNat ∧
    sampleFrame.frameSize = 64 :=
  have hsound := layoutFrame_sound sampleFrame
    ⟨by decide, by decide, by decide⟩ (fun slot h => .inl (by revert slot; decide))
  ⟨hsound.1 (.slot 1) (.slot 0) (show 1 < sampleFrame.fn.slots.length by decide)
      (show 0 < sampleFrame.fn.slots.length by decide) (by decide),
    hsound.2.2.1 1 _ 4 4096 rfl rfl (by decide), by decide⟩

end Mirage.X86.Ctx
