import Mirage.Wasm.DataLayout

/-!
# The data layout is sound

The globals stand in two rows, the ones with an initializer and the zero-initialized ones, each
placed where its extents begin (`Row`), as long as no sum leaves 32 bits.

* `foldl_place`, `foldl_place_wrap`: a row is placed exactly, or a global comes to stand at zero.
* `image_at`: the bytes of a global in the image are its initializer with its relocations.
* `memory_init`, `memory_zero`, `memory_field`: so they are in the memory of an instance.
* `slotHolds`: a function that a relocation names has a slot in the table, with the function.
* `layoutSound_iff`: the layout is sound exactly when nothing wraps while globals are placed and
  the memory, with 1 MiB behind the heap base, ends at most at `2 ^ 32`. Behind that the number of
  pages is too large for a memory, or has wrapped.
-/

namespace Mirage.Wasm

open Types (wrap32 alignUp)

variable {m : DataModule} {n : Nat}

/-! ## Placing in 32 bits -/

/-- The extents of globals. -/
def extents (l : List (Global × Nat)) : List Extent := l.map fun g => g.1.extent

/-- No sum of a cursor and an alignment leaves 32 bits. -/
def NoWrap : Nat → List Extent → Prop
  | _, [] => True
  | n, b :: bs => n + b.align ≤ 2 ^ 32 ∧ NoWrap (roundUp n b.align + b.size) bs

theorem noWrap_append (n : Nat) (bs bs' : List Extent) :
    NoWrap n (bs ++ bs') ↔ NoWrap n bs ∧ NoWrap (ends n bs) bs' := by
  induction bs generalizing n with
  | nil => simp [NoWrap, ends]
  | cons b bs ih =>
    rw [List.cons_append, NoWrap, NoWrap, ends, ih, and_assoc]

theorem alignUp_of_le {a : Nat} (h : n + a ≤ 2 ^ 32) : alignUp n a = roundUp n a := by
  rw [alignUp, roundUp, wrap32, Nat.mod_eq_of_lt (by omega)]

/-- A sum that leaves 32 bits is rounded down to zero. -/
theorem alignUp_of_wrap {a : Nat} (h : 2 ^ 32 < n + a) (hn : n < 2 ^ 32) (ha : a < 2 ^ 32) :
    alignUp n a = 0 := by
  rw [alignUp, wrap32, Nat.mod_eq_sub_mod (by omega), Nat.mod_eq_of_lt (by omega),
    Nat.div_eq_of_lt (by omega), Nat.zero_mul]

/-- One more global, where nothing wraps. -/
theorem place_eq (p : Placing) (g : Global × Nat) (h : p.cursor + g.1.extent.align ≤ 2 ^ 32)
    (hend : roundUp p.cursor g.1.extent.align + g.1.extent.size < 2 ^ 32) :
    p.place g =
      { cursor := roundUp p.cursor g.1.extent.align + g.1.extent.size
        address := fun i =>
          if i = g.2 then roundUp p.cursor g.1.extent.align else p.address i } := by
  have halign : alignUp p.cursor (max 1 g.1.align) = roundUp p.cursor g.1.extent.align :=
    alignUp_of_le h
  rw [Placing.place, halign]
  exact congrArg₂ Placing.mk (Nat.mod_eq_of_lt hend) rfl

/-- Placing others does not move a global. -/
theorem address_foldl_place {l : List (Global × Nat)} (p : Placing) {i : Nat}
    (hi : i ∉ l.map Prod.snd) : (l.foldl Placing.place p).address i = p.address i := by
  induction l generalizing p with
  | nil => rfl
  | cons g l ih =>
    rw [List.map_cons, List.mem_cons, not_or] at hi
    rw [List.foldl_cons, ih (p.place g) hi.2]
    exact if_neg hi.1

/-- The row of globals is placed where its extents begin. -/
theorem foldl_place {l : List (Global × Nat)} (hnodup : (l.map Prod.snd).Nodup) (p : Placing)
    (hwrap : NoWrap p.cursor (extents l)) (hend : ends p.cursor (extents l) < 2 ^ 32) :
    (l.foldl Placing.place p).cursor = ends p.cursor (extents l) ∧
      ∀ r ∈ l.zip (starts p.cursor (extents l)),
        (l.foldl Placing.place p).address r.1.2 = r.2 := by
  induction l generalizing p with
  | nil => exact ⟨rfl, by simp [starts, extents]⟩
  | cons g l ih =>
    rw [List.map_cons, List.nodup_cons] at hnodup
    have hlt : roundUp p.cursor g.1.extent.align + g.1.extent.size < 2 ^ 32 :=
      lt_of_le_of_lt (le_ends _ (extents l)) hend
    have hplace := place_eq p g hwrap.1 hlt
    have hnext : (p.place g).cursor = roundUp p.cursor g.1.extent.align + g.1.extent.size := by
      rw [hplace]
    have hrest := ih hnodup.2 (p.place g)
    rw [hnext] at hrest
    obtain ⟨hcursor, hrows⟩ := hrest hwrap.2 hend
    refine ⟨hcursor, fun r hr => ?_⟩
    rcases List.mem_cons.1 hr with rfl | hr
    · rw [List.foldl_cons, address_foldl_place (p.place g) hnodup.1, hplace]
      exact if_pos rfl
    · exact hrows r hr

/-- Where a sum leaves 32 bits a global comes to stand at zero. -/
theorem foldl_place_wrap {l : List (Global × Nat)} (hnodup : (l.map Prod.snd).Nodup) (p : Placing)
    (hp : 0 < p.cursor) (hwrap : ¬NoWrap p.cursor (extents l))
    (hend : ends p.cursor (extents l) < 2 ^ 32) :
    ∃ g ∈ l, (l.foldl Placing.place p).address g.2 = 0 := by
  induction l generalizing p with
  | nil => exact absurd trivial hwrap
  | cons g l ih =>
    rw [List.map_cons, List.nodup_cons] at hnodup
    have hlt : roundUp p.cursor g.1.extent.align + g.1.extent.size < 2 ^ 32 :=
      lt_of_le_of_lt (le_ends _ (extents l)) hend
    have hle : p.cursor ≤ roundUp p.cursor g.1.extent.align := le_roundUp g.1.extent.align_pos
    by_cases hfirst : p.cursor + g.1.extent.align ≤ 2 ^ 32
    · have hplace := place_eq p g hfirst hlt
      have hnext : (p.place g).cursor = roundUp p.cursor g.1.extent.align + g.1.extent.size := by
        rw [hplace]
      have hrest := ih hnodup.2 (p.place g)
      rw [hnext] at hrest
      obtain ⟨g', hg', hzero⟩ := hrest (by omega) (fun h => hwrap ⟨hfirst, h⟩) hend
      exact ⟨g', List.mem_cons_of_mem _ hg', hzero⟩
    · have halign : g.1.extent.align ≤ roundUp p.cursor g.1.extent.align :=
        Nat.le_of_dvd (by omega) (dvd_roundUp _ _)
      refine ⟨g, List.mem_cons_self, ?_⟩
      rw [List.foldl_cons, address_foldl_place (p.place g) hnodup.1]
      refine (if_pos rfl).trans ?_
      show alignUp p.cursor g.1.extent.align = 0
      exact alignUp_of_wrap (Nat.lt_of_not_le hfirst) (by omega) (by omega)

/-! ## The globals of a module -/

variable (m) in
/-- The globals with an initializer, in order, with their indices. -/
def dataGlobals : List (Global × Nat) := m.globalDefs.zipIdx.filter fun g => !g.1.init.isEmpty

variable (m) in
/-- The zero-initialized globals. -/
def zeroGlobals : List (Global × Nat) := m.globalDefs.zipIdx.filter fun g => g.1.init.isEmpty

variable (m) in
def exactDataEnd : Nat := ends dataBase (extents (dataGlobals m))

variable (m) in
def exactGlobalsEnd : Nat := ends (exactDataEnd m) (extents (zeroGlobals m))

variable (m) in
/-- The heap base, in exact numbers. -/
def exactHeapBase : Nat := roundUp (exactGlobalsEnd m) 16 + stackSize

theorem dataPlaced_eq (m : DataModule) : dataPlaced m = (dataGlobals m).foldl Placing.place {} := by
  rw [dataPlaced, placeAll, dataGlobals, List.foldl_filter]

theorem allPlaced_eq (m : DataModule) : allPlaced m = (zeroGlobals m).foldl Placing.place (dataPlaced m) := by
  rw [allPlaced, placeAll, zeroGlobals, List.foldl_filter]

theorem nodup_zipIdx (m : DataModule) : (m.globalDefs.zipIdx.map Prod.snd).Nodup := by
  rw [List.zipIdx_map_snd]
  exact List.nodup_range'

theorem nodup_dataGlobals (m : DataModule) : ((dataGlobals m).map Prod.snd).Nodup :=
  (nodup_zipIdx m).sublist (List.filter_sublist.map _)

theorem nodup_zeroGlobals (m : DataModule) : ((zeroGlobals m).map Prod.snd).Nodup :=
  (nodup_zipIdx m).sublist (List.filter_sublist.map _)

/-- Each global is in one of the two rows. -/
theorem mem_rows {i : Nat} {g : Global} (h : m.globalDefs[i]? = some g) :
    (g.init ≠ [] ∧ (g, i) ∈ dataGlobals m) ∨ (g.init = [] ∧ (g, i) ∈ zeroGlobals m) := by
  have hmem : (g, i) ∈ m.globalDefs.zipIdx := List.mem_zipIdx_iff_getElem?.2 h
  by_cases hinit : g.init = []
  · exact .inr ⟨hinit, List.mem_filter.2 ⟨hmem, by rw [hinit]; rfl⟩⟩
  · exact .inl ⟨hinit, List.mem_filter.2 ⟨hmem, by simpa using hinit⟩⟩

theorem getElem?_of_mem_data {g : Global × Nat} (h : g ∈ dataGlobals m) :
    m.globalDefs[g.2]? = some g.1 ∧ g.1.init ≠ [] := by
  obtain ⟨hmem, hinit⟩ := List.mem_filter.1 h
  exact ⟨List.mem_zipIdx_iff_getElem?.1 hmem, by simpa using hinit⟩

theorem getElem?_of_mem_zero {g : Global × Nat} (h : g ∈ zeroGlobals m) :
    m.globalDefs[g.2]? = some g.1 ∧ g.1.init = [] := by
  obtain ⟨hmem, hinit⟩ := List.mem_filter.1 h
  exact ⟨List.mem_zipIdx_iff_getElem?.1 hmem, by simpa using hinit⟩

theorem not_mem_zeroGlobals {g : Global × Nat} (h : g ∈ dataGlobals m) :
    g.2 ∉ (zeroGlobals m).map Prod.snd := by
  intro hother
  obtain ⟨g', hg', hindex⟩ := List.mem_map.1 hother
  obtain ⟨hget', hinit'⟩ := getElem?_of_mem_zero hg'
  obtain ⟨hget, hinit⟩ := getElem?_of_mem_data h
  rw [hindex, hget] at hget'
  exact hinit (Option.some.inj hget' ▸ hinit')

/-- The row is placed, in terms of its globals. -/
structure Row (l : List (Global × Nat)) (first last : Nat) (address : Nat → Nat) : Prop where
  aligned : ∀ g ∈ l, g.1.extent.align ∣ address g.2
  behind : ∀ g ∈ l, first ≤ address g.2
  inside : ∀ g ∈ l, address g.2 + g.1.extent.size ≤ last
  apart : ∀ g ∈ l, ∀ h ∈ l, g.2 ≠ h.2 →
    address g.2 + g.1.extent.size ≤ address h.2 ∨ address h.2 + h.1.extent.size ≤ address g.2
  exists_last : last = first ∨ ∃ g ∈ l, address g.2 + g.1.extent.size = last

theorem row_of_starts {l : List (Global × Nat)} {address : Nat → Nat}
    (h : ∀ r ∈ l.zip (starts n (extents l)), address r.1.2 = r.2) :
    Row l n (ends n (extents l)) address := by
  have hplaced := placed_starts n (extents l)
  have hlen : l.length ≤ (starts n (extents l)).length := by
    rw [length_starts, extents, List.length_map]
  have hzip : (extents l).zip (starts n (extents l)) =
      (l.zip (starts n (extents l))).map fun r => (r.1.1.extent, r.2) := by
    rw [extents, List.zip_map_left]
    rfl
  have hpair : ∀ g ∈ l, (g, address g.2) ∈ l.zip (starts n (extents l)) := fun g hg => by
    rw [← List.map_fst_zip hlen] at hg
    obtain ⟨r, hr, rfl⟩ := List.mem_map.1 hg
    rw [h r hr]
    exact hr
  have hrow : ∀ g ∈ l, (g.1.extent, address g.2) ∈ (extents l).zip (starts n (extents l)) :=
    fun g hg => hzip ▸ List.mem_map.2 ⟨_, hpair g hg, rfl⟩
  refine ⟨fun g hg => hplaced.aligned _ (hrow g hg), fun g hg => hplaced.behind _ (hrow g hg),
    fun g hg => hplaced.inside _ (hrow g hg), fun g hg g' hg' hne => ?_, ?_⟩
  · -- one of the two comes first
    have hordered := hplaced.ordered
    rw [hzip, List.pairwise_map] at hordered
    have hapart : (l.zip (starts n (extents l))).Pairwise fun r s =>
        r.2 + r.1.1.extent.size ≤ s.2 ∨ s.2 + s.1.1.extent.size ≤ r.2 := hordered.imp .inl
    have hsymm : Std.Symm fun r s : (Global × Nat) × Nat =>
        r.2 + r.1.1.extent.size ≤ s.2 ∨ s.2 + s.1.1.extent.size ≤ r.2 := ⟨fun _ _ hrs => hrs.symm⟩
    exact hapart.forall (hpair g hg) (hpair g' hg')
      fun heq => hne (congrArg (fun r : (Global × Nat) × Nat => r.1.2) heq)
  · rcases eq_or_ne l [] with rfl | hne
    · exact .inl rfl
    · obtain ⟨r, hr, hend⟩ := exists_end n (show extents l ≠ [] by simpa [extents] using hne)
      rw [hzip] at hr
      obtain ⟨s, hs, rfl⟩ := List.mem_map.1 hr
      refine .inr ⟨s.1, (List.of_mem_zip hs).1, ?_⟩
      rw [h s hs]
      exact hend

/-- The rows of a layout in which nothing wraps. -/
structure Laid (m : DataModule) : Prop where
  dataEnd : dataEnd m = exactDataEnd m
  data : Row (dataGlobals m) dataBase (exactDataEnd m) (globalAddress m)
  zero : Row (zeroGlobals m) (exactDataEnd m) (exactGlobalsEnd m) (globalAddress m)
  stackBase : stackBase m = roundUp (exactGlobalsEnd m) 16
  stackTop : stackTop m = exactHeapBase m

variable (m) in
/-- No sum leaves 32 bits while the globals are placed. -/
def GlobalsNoWrap : Prop :=
  NoWrap dataBase (extents (dataGlobals m) ++ extents (zeroGlobals m))

theorem laid_of_noWrap (hwrap : GlobalsNoWrap m) (hheap : exactHeapBase m < 2 ^ 32) : Laid m := by
  obtain ⟨hdata, hzero⟩ := (noWrap_append _ _ _).1 hwrap
  have hround : exactGlobalsEnd m ≤ roundUp (exactGlobalsEnd m) 16 := le_roundUp (by omega)
  have hends : exactDataEnd m ≤ exactGlobalsEnd m := le_ends _ _
  rw [exactHeapBase, stackSize] at hheap
  obtain ⟨hend, hrows⟩ := foldl_place (nodup_dataGlobals m) {} hdata
    (show exactDataEnd m < 2 ^ 32 by omega)
  rw [← dataPlaced_eq] at hend hrows
  have hlast := foldl_place (nodup_zeroGlobals m) (dataPlaced m)
  rw [hend, ← allPlaced_eq] at hlast
  obtain ⟨hend', hrows'⟩ := hlast hzero (show exactGlobalsEnd m < 2 ^ 32 by omega)
  have hbase : Wasm.stackBase m = roundUp (exactGlobalsEnd m) 16 := by
    have hcursor : (allPlaced m).cursor = exactGlobalsEnd m := hend'
    rw [Wasm.stackBase, hcursor, wrap32, Nat.mod_eq_of_lt (by omega), roundUp]
    rfl
  refine ⟨hend, row_of_starts fun r hr => ?_, row_of_starts hrows', hbase, ?_⟩
  · -- the zero-initialized globals are others
    have hmem := (List.of_mem_zip hr).1
    rw [globalAddress, allPlaced_eq, address_foldl_place _ (not_mem_zeroGlobals hmem)]
    exact hrows r hr
  · rw [Wasm.stackTop, hbase, wrap32, exactHeapBase, stackSize, Nat.mod_eq_of_lt hheap]

/-! ## The image -/

section

variable {g g' : Global × Nat} {x : Nat}

/-- Where the bytes of a global are in the image. -/
theorem Laid.offset (h : Laid m) (hheap : exactHeapBase m < 2 ^ 32) (hg : g ∈ dataGlobals m) :
    sub32 (globalAddress m g.2) dataBase = globalAddress m g.2 - dataBase ∧
      dataBase ≤ globalAddress m g.2 ∧
      globalAddress m g.2 + g.1.extent.size ≤ exactDataEnd m ∧ exactDataEnd m < 2 ^ 32 := by
  have hbehind := h.data.behind g hg
  have hinside := h.data.inside g hg
  have hends : exactDataEnd m ≤ exactGlobalsEnd m := le_ends _ _
  have hround : exactGlobalsEnd m ≤ roundUp (exactGlobalsEnd m) 16 := le_roundUp (by omega)
  rw [exactHeapBase, stackSize] at hheap
  refine ⟨?_, hbehind, hinside, by omega⟩
  rw [sub32, wrap32]
  rw [dataBase] at hbehind ⊢
  omega

theorem init_le_extent (hsized : g.1.Sized) : g.1.init.length ≤ g.1.extent.size := by
  have hmax : g.1.size ≤ g.1.extent.size := Nat.le_max_right 1 g.1.size
  rcases hsized with hnil | hlen
  · rw [hnil]
    exact Nat.zero_le _
  · rw [hlen]
    exact hmax

/-- Another global in the image is apart. -/
theorem Laid.apart_image (h : Laid m) (hg : g ∈ dataGlobals m) (hg' : g' ∈ dataGlobals m)
    (hne : g'.2 ≠ g.2) (hsized : g.1.Sized) (hx : x < g.1.init.length) :
    ¬(globalAddress m g'.2 - dataBase ≤ globalAddress m g.2 - dataBase + x ∧
      globalAddress m g.2 - dataBase + x < globalAddress m g'.2 - dataBase + g'.1.extent.size) := by
  have hapart := h.data.apart g' hg' g hg hne
  have hbehind := h.data.behind g hg
  have hbehind' := h.data.behind g' hg'
  have hinit := init_le_extent hsized
  omega

theorem mem_dataGlobals (hg : g ∈ m.globalDefs.zipIdx) (hinit : ¬g.1.init.isEmpty = true) :
    g ∈ dataGlobals m :=
  List.mem_filter.2 ⟨hg, by simpa using hinit⟩

theorem sized_of_mem (hrel : m.Relocatable 4) (hg : g ∈ m.globalDefs.zipIdx) : g.1.Sized :=
  hrel.sized _ (List.mem_of_getElem? (List.mem_zipIdx_iff_getElem?.1 hg))

theorem mem_zipIdx_of_data (hg : g ∈ dataGlobals m) : g ∈ m.globalDefs.zipIdx :=
  (List.mem_filter.1 hg).1

/-- Copying another initializer does not change the bytes of a global. -/
theorem copyInit_frame (h : Laid m) (hheap : exactHeapBase m < 2 ^ 32) (hrel : m.Relocatable 4)
    (hg : g ∈ dataGlobals m) (hg' : g' ∈ m.globalDefs.zipIdx) (hne : g'.2 ≠ g.2)
    (hx : x < g.1.init.length) (b : Blob) :
    copyInit m b g' (globalAddress m g.2 - dataBase + x) =
      b (globalAddress m g.2 - dataBase + x) := by
  rw [copyInit]
  split_ifs with hinit
  · rfl
  · have hdata := mem_dataGlobals hg' hinit
    have hapart := h.apart_image hg hdata hne (sized_of_mem hrel (mem_zipIdx_of_data hg)) hx
    have hlen := init_le_extent (sized_of_mem hrel hg')
    rw [(h.offset hheap hdata).1, Blob.write, Blob.splice, if_neg]
    rintro ⟨hlow, hhigh⟩
    exact hapart ⟨hlow, by omega⟩

/-- Where a relocation of a global is stored. -/
theorem Laid.relocOffset (h : Laid m) (hheap : exactHeapBase m < 2 ^ 32) (hrel : m.Relocatable 4)
    (hg : g ∈ dataGlobals m) {r : Relocation} (hr : r ∈ g.1.relocations) :
    wrap32 (sub32 (globalAddress m g.2) dataBase + r.offset) =
      globalAddress m g.2 - dataBase + r.offset ∧ r.offset + 4 ≤ g.1.init.length := by
  obtain ⟨hget, hinit⟩ := getElem?_of_mem_data hg
  obtain ⟨hoffset, hbehind, hinside, hend⟩ := h.offset hheap hg
  have hfield := hrel.inside _ (List.mem_of_getElem? hget) hinit r hr
  have hlen := init_le_extent (sized_of_mem hrel (mem_zipIdx_of_data hg))
  refine ⟨?_, hfield⟩
  rw [hoffset, wrap32, Nat.mod_eq_of_lt (by omega)]

/-- Storing the relocations of another global does not change the bytes of a global. -/
theorem patchGlobal_frame (h : Laid m) (hheap : exactHeapBase m < 2 ^ 32) (hrel : m.Relocatable 4)
    (hg : g ∈ dataGlobals m) (hg' : g' ∈ m.globalDefs.zipIdx) (hne : g'.2 ≠ g.2)
    (hx : x < g.1.init.length) (b : Blob) :
    patchGlobal m b g' (globalAddress m g.2 - dataBase + x) =
      b (globalAddress m g.2 - dataBase + x) := by
  rw [patchGlobal]
  split_ifs with hinit
  · rfl
  · have hdata := mem_dataGlobals hg' hinit
    have hapart := h.apart_image hg hdata hne (sized_of_mem hrel (mem_zipIdx_of_data hg)) hx
    have hlen := init_le_extent (sized_of_mem hrel hg')
    refine Blob.foldl_of_frame (fun r hr b => ?_) b
    obtain ⟨hoffset, hfield⟩ := h.relocOffset hheap hrel hdata hr
    rw [hoffset, Blob.store32, Blob.splice, if_neg]
    rintro ⟨hlow, hhigh⟩
    exact hapart ⟨by omega, by omega⟩

/-- The relocations of a global, seen from its first byte. -/
theorem patchGlobal_own (h : Laid m) (hheap : exactHeapBase m < 2 ^ 32) (hrel : m.Relocatable 4)
    (hg : g ∈ dataGlobals m) (b : Blob) :
    (patchGlobal m b g).view (globalAddress m g.2 - dataBase) =
      g.1.relocations.foldl (fun bytes r => bytes.store32 r.offset (relocValue m r))
        (b.view (globalAddress m g.2 - dataBase)) := by
  obtain ⟨-, hinit⟩ := getElem?_of_mem_data hg
  rw [patchGlobal, if_neg (by simpa using hinit)]
  have hoffset := fun r hr => (h.relocOffset hheap hrel hg (r := r) hr).1
  generalize g.1.relocations = relocations at hoffset ⊢
  induction relocations generalizing b with
  | nil => rfl
  | cons r relocations ih =>
    rw [List.foldl_cons, List.foldl_cons, ih _ fun r hr => hoffset r (List.mem_cons_of_mem _ hr),
      hoffset r List.mem_cons_self, Blob.view_store32]

/-- The same bytes in a range stay so when numbers are stored. -/
theorem foldl_store32_congr {relocations : List Relocation} {b b' : Blob} {n : Nat}
    (hb : ∀ x < n, b x = b' x) : ∀ x < n,
      relocations.foldl (fun bytes r => bytes.store32 r.offset (relocValue m r)) b x =
        relocations.foldl (fun bytes r => bytes.store32 r.offset (relocValue m r)) b' x := by
  induction relocations generalizing b b' with
  | nil => exact hb
  | cons r relocations ih =>
    refine ih fun x hx => ?_
    show (if _ then _ else b x) = if _ then _ else b' x
    rw [hb x hx]

/-- The bytes of a global after its initializer is copied. -/
theorem copyInit_own (h : Laid m) (hheap : exactHeapBase m < 2 ^ 32) (hg : g ∈ dataGlobals m)
    (hx : x < g.1.init.length) (b : Blob) :
    copyInit m b g (globalAddress m g.2 - dataBase + x) = g.1.init.getD x 0 := by
  obtain ⟨-, hinit⟩ := getElem?_of_mem_data hg
  rw [copyInit, if_neg (by simpa using hinit), (h.offset hheap hg).1, Blob.write, Blob.splice,
    if_pos (by omega), Nat.add_sub_cancel_left]

/-- The bytes of a global in the image. -/
theorem image_at (h : Laid m) (hheap : exactHeapBase m < 2 ^ 32) (hrel : m.Relocatable 4)
    (hg : g ∈ dataGlobals m) (hx : x < g.1.init.length) :
    image m (globalAddress m g.2 - dataBase + x) = relocatedInit m g.1 x := by
  obtain ⟨before, after, hsplit⟩ := List.append_of_mem (mem_zipIdx_of_data hg)
  have hnodup := nodup_zipIdx m
  rw [hsplit, List.map_append, List.map_cons, List.nodup_middle, List.nodup_cons,
    ← List.map_append] at hnodup
  have hother : ∀ g' ∈ before ++ after, g' ∈ m.globalDefs.zipIdx ∧ g'.2 ≠ g.2 := fun g' hg' => by
    refine ⟨?_, fun heq => hnodup.1 (List.mem_map.2 ⟨g', hg', heq⟩)⟩
    rw [hsplit]
    exact (List.mem_append.1 hg').elim (List.mem_append_left _) fun hmem =>
      List.mem_append_right _ (List.mem_cons_of_mem _ hmem)
  have hbefore : ∀ g' ∈ before, g' ∈ m.globalDefs.zipIdx ∧ g'.2 ≠ g.2 :=
    fun g' hg' => hother g' (List.mem_append_left _ hg')
  have hafter : ∀ g' ∈ after, g' ∈ m.globalDefs.zipIdx ∧ g'.2 ≠ g.2 :=
    fun g' hg' => hother g' (List.mem_append_right _ hg')
  -- the bytes before relocations are stored
  have hcopied : ∀ x < g.1.init.length, (before ++ g :: after).foldl (copyInit m) (fun _ => 0)
      (globalAddress m g.2 - dataBase + x) = g.1.init.getD x 0 := fun x hx => by
    rw [List.foldl_append, List.foldl_cons, Blob.foldl_of_frame fun g' hg' =>
      copyInit_frame h hheap hrel hg (hafter g' hg').1 (hafter g' hg').2 hx]
    exact copyInit_own h hheap hg hx _
  rw [image, hsplit, List.foldl_append, List.foldl_cons, Blob.foldl_of_frame fun g' hg' =>
    patchGlobal_frame h hheap hrel hg (hafter g' hg').1 (hafter g' hg').2 hx]
  have hown := congrFun (patchGlobal_own h hheap hrel hg (before.foldl (patchGlobal m)
    ((before ++ g :: after).foldl (copyInit m) fun _ => 0))) x
  refine hown.trans (foldl_store32_congr (fun x hx => ?_) x hx)
  rw [Blob.view, Blob.foldl_of_frame fun g' hg' =>
    patchGlobal_frame h hheap hrel hg (hbefore g' hg').1 (hbefore g' hg').2 hx]
  exact hcopied x hx

end

/-! ## Memory -/

section

variable {y : Nat}

/-- Memory in the range of the image. -/
theorem memory_inside (hlow : dataBase ≤ y) (hhigh : y < dataEnd m) :
    memory m y = image m (y - dataBase) := by
  have hlen : ((image m).bytes 0 (dataEnd m - dataBase)).length = dataEnd m - dataBase :=
    Blob.length_bytes _ _ _
  rw [memory, dataSegments, if_pos (by omega), List.foldl_cons, List.foldl_nil, Blob.write,
    Blob.splice]
  dsimp only
  rw [hlen, if_pos (by omega), Blob.bytes, List.getD_eq_getElem?_getD, List.getElem?_map,
    List.getElem?_range (by omega), Option.map_some, Option.getD_some, Nat.zero_add]

/-- Memory behind the image. -/
theorem memory_outside (hhigh : dataEnd m ≤ y) : memory m y = 0 := by
  have hlen : ((image m).bytes 0 (dataEnd m - dataBase)).length = dataEnd m - dataBase :=
    Blob.length_bytes _ _ _
  rw [memory, dataSegments]
  split_ifs with h
  · rw [List.foldl_cons, List.foldl_nil, Blob.write, Blob.splice]
    dsimp only
    rw [hlen, if_neg (by omega)]
  · rfl

end

/-! ## The function table -/

section

variable {i k : Nat} {marks : List Bool}

/-- What is marked gets a number, and nothing else does. -/
theorem getElem?_number (n : Nat) {mark : Bool} (hi : marks[i]? = some mark) :
    ∃ o, (number n marks)[i]? = some o ∧ (o.isSome = mark) := by
  induction marks generalizing n i with
  | nil => cases hi
  | cons first marks ih =>
    cases i with
    | zero =>
      obtain rfl : first = mark := by simpa using hi
      cases first
      · exact ⟨none, rfl, rfl⟩
      · exact ⟨some n, rfl, rfl⟩
    | succ i => cases first <;> exact ih _ hi

/-- A function that is referenced has an index. -/
theorem wasmIndex_of_referenced (hi : i < m.functions.length) (h : referenced m i = true) :
    ∃ index, (wasmIndex m)[i]? = some (some index) := by
  have hfn := List.getElem?_eq_getElem hi
  have hbody : (m.functions.map Function.hasBody)[i]? = some m.functions[i].hasBody := by
    rw [List.getElem?_map, hfn, Option.map_some]
  have himport : (importMarks m)[i]? = some (!m.functions[i].hasBody) := by
    rw [importMarks, List.getElem?_map, List.getElem?_zipIdx, hfn]
    simp [h]
  obtain ⟨defined, hdefined, hsome⟩ := getElem?_number (importCount m) hbody
  obtain ⟨imported, himported, hsome'⟩ := getElem?_number 0 himport
  have hindex : (wasmIndex m)[i]? = some (defined.or imported) := by
    rw [wasmIndex, List.getElem?_zipWith, hdefined, himported]
  rw [hindex]
  -- one of the two numbers it
  cases defined with
  | some index => exact ⟨index, rfl⟩
  | none =>
    rw [← hsome] at hsome'
    obtain ⟨index, rfl⟩ := Option.isSome_iff_exists.1 hsome'
    exact ⟨index, rfl⟩

/-- The functions before the `k`-th whose address is taken are in the table. -/
theorem functionTable_slots (k : Nat) :
    (((List.range k).foldl (tableStep m) {}).slots.length = k) ∧
      ∀ i < k, ∀ index, addressTaken m i = true → (wasmIndex m)[i]? = some (some index) →
        ∃ s, ((List.range k).foldl (tableStep m) {}).slots[i]? = some (s + 1) ∧
          ((List.range k).foldl (tableStep m) {}).elements[s]? = some index := by
  induction k with
  | zero => exact ⟨rfl, fun i hi => absurd hi (Nat.not_lt_zero i)⟩
  | succ k ih =>
    obtain ⟨hlen, hslots⟩ := ih
    rw [List.range_succ, List.foldl_append, List.foldl_cons, List.foldl_nil]
    generalize (List.range k).foldl (tableStep m) {} = table at hlen hslots ⊢
    rw [tableStep]
    cases hnext : if addressTaken m k then ((wasmIndex m)[k]?).join else none with
    | none =>
      refine ⟨by simp [hlen], fun i hi index htaken hindex => ?_⟩
      rcases Nat.lt_succ_iff_lt_or_eq.1 hi with hlt | rfl
      · obtain ⟨s, hslot, helement⟩ := hslots i hlt index htaken hindex
        exact ⟨s, by rw [List.getElem?_append_left (by omega), hslot], helement⟩
      · rw [if_pos htaken, hindex] at hnext
        cases hnext
    | some next =>
      refine ⟨by simp [hlen], fun i hi index htaken hindex => ?_⟩
      rcases Nat.lt_succ_iff_lt_or_eq.1 hi with hlt | rfl
      · obtain ⟨s, hslot, helement⟩ := hslots i hlt index htaken hindex
        have hs := (List.getElem?_eq_some_iff.1 helement).1
        exact ⟨s, by rw [List.getElem?_append_left (by omega), hslot],
          by rw [List.getElem?_append_left hs, helement]⟩
      · rw [if_pos htaken, hindex] at hnext
        obtain rfl : index = next := by simpa using hnext
        exact ⟨table.elements.length, by rw [← hlen, List.getElem?_concat_length],
          List.getElem?_concat_length⟩

theorem relocated_of_mem {g : Global} {r : Relocation} (hg : g ∈ m.globalDefs)
    (hr : r ∈ g.relocations) (hkind : r.kind = .functionAddr) : relocated m r.target = true := by
  refine List.any_eq_true.2 ⟨g, hg, List.any_eq_true.2 ⟨r, hr, ?_⟩⟩
  simp [hkind]

/-- A function that a relocation names has a slot. -/
theorem slotHolds (hi : i < m.functions.length) (h : relocated m i = true) : SlotHolds m i := by
  have htaken : addressTaken m i = true := by rw [addressTaken, h, Bool.or_true]
  obtain ⟨index, hindex⟩ := wasmIndex_of_referenced hi (by rw [referenced, h, Bool.or_true])
  obtain ⟨s, hslot, helement⟩ := (functionTable_slots m.functions.length).2 i hi index htaken hindex
  have hs := (List.getElem?_eq_some_iff.1 helement).1
  have heq : tableSlot m i = s + 1 := by
    rw [tableSlot, List.getD_eq_getElem?_getD, functionTable, hslot, Option.getD_some]
  refine ⟨by omega, ?_, index, hindex, ?_⟩
  · rw [heq, tableSize]
    exact Nat.succ_lt_succ hs
  · rw [heq]
    exact helement

end

/-! ## Soundness -/

section

variable {i : Nat} {g : Global}

/-- A global lies behind the guard and before the stack. -/
theorem Laid.bounds (h : Laid m) (hg : m.globalDefs[i]? = some g) :
    g.extent.align ∣ globalAddress m i ∧ dataBase ≤ globalAddress m i ∧
      globalAddress m i + g.extent.size ≤ exactGlobalsEnd m := by
  have hdata : dataBase ≤ exactDataEnd m := le_ends _ _
  have hends : exactDataEnd m ≤ exactGlobalsEnd m := le_ends _ _
  rcases mem_rows hg with ⟨-, hmem⟩ | ⟨-, hmem⟩
  · exact ⟨h.data.aligned _ hmem, h.data.behind _ hmem, (h.data.inside _ hmem).trans hends⟩
  · exact ⟨h.zero.aligned _ hmem, hdata.trans (h.zero.behind _ hmem), h.zero.inside _ hmem⟩

/-- Two globals are apart. -/
theorem Laid.apart (h : Laid m) {j : Nat} {g' : Global} (hne : i ≠ j)
    (hg : m.globalDefs[i]? = some g) (hg' : m.globalDefs[j]? = some g') :
    globalAddress m i + g.extent.size ≤ globalAddress m j ∨
      globalAddress m j + g'.extent.size ≤ globalAddress m i := by
  rcases mem_rows hg with ⟨-, hmem⟩ | ⟨-, hmem⟩
  · rcases mem_rows hg' with ⟨-, hmem'⟩ | ⟨-, hmem'⟩
    · exact h.data.apart _ hmem _ hmem' hne
    · exact .inl ((h.data.inside _ hmem).trans (h.zero.behind _ hmem'))
  · rcases mem_rows hg' with ⟨-, hmem'⟩ | ⟨-, hmem'⟩
    · exact .inr ((h.data.inside _ hmem').trans (h.zero.behind _ hmem))
    · exact h.zero.apart _ hmem _ hmem' hne

/-- Some global ends where the globals end. -/
theorem Laid.exists_last (h : Laid m) : exactGlobalsEnd m = dataBase ∨
    ∃ i g, m.globalDefs[i]? = some g ∧ globalAddress m i + g.extent.size = exactGlobalsEnd m := by
  rcases h.zero.exists_last with hnil | ⟨g, hg, hend⟩
  · rcases h.data.exists_last with hnil' | ⟨g, hg, hend⟩
    · exact .inl (hnil.trans hnil')
    · exact .inr ⟨g.2, g.1, (getElem?_of_mem_data hg).1, hend.trans hnil.symm⟩
  · exact .inr ⟨g.2, g.1, (getElem?_of_mem_zero hg).1, hend⟩

/-- The bytes of an initialized global in memory. -/
theorem memory_init (h : Laid m) (hheap : exactHeapBase m < 2 ^ 32) (hrel : m.Relocatable 4)
    (hg : m.globalDefs[i]? = some g) {x : Nat} (hx : x < g.init.length) :
    memory m (globalAddress m i + x) = relocatedInit m g x := by
  rcases mem_rows hg with ⟨-, hmem⟩ | ⟨hnil, -⟩
  · have hbehind : dataBase ≤ globalAddress m i := h.data.behind _ hmem
    have hinside : globalAddress m i + g.extent.size ≤ exactDataEnd m := h.data.inside _ hmem
    have hlen := init_le_extent (sized_of_mem hrel (mem_zipIdx_of_data hmem))
    have hlow : dataBase ≤ globalAddress m i + x := hbehind.trans (Nat.le_add_right _ _)
    have hhigh : globalAddress m i + x < dataEnd m := by
      rw [h.dataEnd]
      exact lt_of_lt_of_le (Nat.add_lt_add_left (lt_of_lt_of_le hx hlen) _) hinside
    have himage := image_at h hheap hrel hmem hx
    calc memory m (globalAddress m i + x)
        = image m (globalAddress m i + x - dataBase) := memory_inside hlow hhigh
      _ = image m (globalAddress m i - dataBase + x) :=
        congrArg (image m) (Nat.sub_add_comm hbehind)
      _ = relocatedInit m g x := himage
  · rw [hnil] at hx
    exact absurd hx (Nat.not_lt_zero x)

theorem memory_zero (h : Laid m) (hg : m.globalDefs[i]? = some g) (hnil : g.init = []) (x : Nat) :
    memory m (globalAddress m i + x) = 0 := by
  rcases mem_rows hg with ⟨hne, -⟩ | ⟨-, hmem⟩
  · exact absurd hnil hne
  · have hbehind := h.zero.behind _ hmem
    refine memory_outside ?_
    rw [h.dataEnd]
    exact hbehind.trans (Nat.le_add_right _ _)

theorem relocValue_lt (r : Relocation) : relocValue m r < 2 ^ 32 := Nat.mod_lt _ (by decide)

/-- A relocation that no later one meets is read back. -/
theorem memory_field (h : Laid m) (hheap : exactHeapBase m < 2 ^ 32) (hrel : m.Relocatable 4)
    (hg : m.globalDefs[i]? = some g) (hinit : g.init ≠ []) {before after : List Relocation}
    {r : Relocation} (hsplit : g.relocations = before ++ r :: after)
    (hafter : ∀ s ∈ after, s.offset + 4 ≤ r.offset ∨ r.offset + 4 ≤ s.offset) :
    (memory m).load32 (globalAddress m i + r.offset) = relocValue m r := by
  have hfield := hrel.inside g (List.mem_of_getElem? hg) hinit r (hsplit ▸ List.mem_append_cons_self)
  have hload : (relocatedInit m g).load32 r.offset = relocValue m r := by
    rw [relocatedInit, hsplit]
    exact Blob.load32_foldl_store32 (relocValue_lt r) hafter _
  rw [← hload, Blob.load32, Blob.load32]
  congr 1
  refine Blob.bytes_congr fun x hx => ?_
  rw [Nat.add_assoc]
  exact memory_init h hheap hrel hg (by omega)

theorem slotErrors_eq_nil (hrel : m.Relocatable 4) : slotErrors m = [] := by
  refine List.flatMap_eq_nil_iff.2 fun g hg => ?_
  split_ifs
  · rfl
  · refine List.filterMap_eq_nil_iff.2 fun r hr => if_neg ?_
    rintro ⟨hkind, hzero⟩
    have hslot := slotHolds (hrel.function g hg r hr hkind) (relocated_of_mem hg hr hkind)
    exact absurd hslot.1 (by omega)

/-- Where something wraps a global comes to stand in the guard. -/
theorem exists_zero_of_wrap (hwrap : ¬GlobalsNoWrap m) (hheap : exactHeapBase m < 2 ^ 32) :
    ∃ i g, m.globalDefs[i]? = some g ∧ globalAddress m i = 0 := by
  have hround : exactGlobalsEnd m ≤ roundUp (exactGlobalsEnd m) 16 := le_roundUp (by omega)
  have hends : exactDataEnd m ≤ exactGlobalsEnd m := le_ends _ _
  rw [exactHeapBase, stackSize] at hheap
  have hend : exactDataEnd m < 2 ^ 32 := by omega
  have hend' : exactGlobalsEnd m < 2 ^ 32 := by omega
  rw [GlobalsNoWrap, noWrap_append, not_and_or] at hwrap
  by_cases hdata : NoWrap dataBase (extents (dataGlobals m))
  · have hzero := hwrap.resolve_left (not_not.2 hdata)
    obtain ⟨hcursor, -⟩ := foldl_place (nodup_dataGlobals m) {} hdata hend
    rw [← dataPlaced_eq] at hcursor
    have hlast := foldl_place_wrap (nodup_zeroGlobals m) (dataPlaced m)
    rw [hcursor, ← allPlaced_eq] at hlast
    have hpos : 0 < exactDataEnd m := lt_of_lt_of_le (by decide) (le_ends dataBase _)
    obtain ⟨g, hg, hzero⟩ := hlast hpos hzero hend'
    exact ⟨g.2, g.1, (getElem?_of_mem_zero hg).1, hzero⟩
  · obtain ⟨g, hg, hzero⟩ := foldl_place_wrap (nodup_dataGlobals m) {} (by decide) hdata hend
    rw [← dataPlaced_eq] at hzero
    refine ⟨g.2, g.1, (getElem?_of_mem_data hg).1, ?_⟩
    rw [globalAddress, allPlaced_eq, address_foldl_place _ (not_mem_zeroGlobals hg), hzero]

/-- The memory, where nothing wraps and the memory with its slack ends at most at `2 ^ 32`. -/
theorem Laid.pages (h : Laid m) (hheap : exactHeapBase m ≤ 2 ^ 32 - 2 ^ 20) :
    exactHeapBase m ≤ memoryMinPages m * pageSize ∧ memoryMinPages m ≤ 65536 := by
  rw [memoryMinPages, h.stackTop, pageSize, wrap32, wrap32]
  omega

/-- The memory, where it would end behind `2 ^ 32`: it has too many pages, or too few. -/
theorem Laid.not_pages (h : Laid m) (hheap : exactHeapBase m < 2 ^ 32)
    (hlarge : ¬exactHeapBase m ≤ 2 ^ 32 - 2 ^ 20) :
    ¬memoryMinPages m ≤ 65536 ∨ memoryMinPages m * pageSize < exactGlobalsEnd m := by
  have hround : roundUp (exactGlobalsEnd m) 16 ≤ exactGlobalsEnd m + 15 := Nat.div_mul_le_self _ 16
  rw [memoryMinPages, h.stackTop, pageSize, wrap32, wrap32]
  rw [exactHeapBase, stackSize] at *
  omega

theorem layoutSound_of_laid (h : Laid m) (hrel : m.Relocatable 4)
    (hheap : exactHeapBase m ≤ 2 ^ 32 - 2 ^ 20) : LayoutSound m := by
  have hlt : exactHeapBase m < 2 ^ 32 := lt_of_le_of_lt hheap (by decide)
  obtain ⟨hfit, hpages⟩ := h.pages hheap
  have hround : exactGlobalsEnd m ≤ roundUp (exactGlobalsEnd m) 16 := le_roundUp (by omega)
  have htop : exactGlobalsEnd m ≤ exactHeapBase m := hround.trans (Nat.le_add_right _ _)
  refine ⟨fun i g hg => (h.bounds hg).1, fun i g hg => (h.bounds hg).2.1,
    fun i j g g' hne hg hg' => h.apart hne hg hg', fun i g hg => .inl ?_,
    fun i g hg => (h.bounds hg).2.2.trans (htop.trans hfit), ⟨hpages, fun segment hsegment => ?_⟩,
    fun i g hg x hx => memory_init h hlt hrel hg hx, fun i g hg hnil x _ => memory_zero h hg hnil x,
    fun i g before r after hg hinit hsplit hafter => memory_field h hlt hrel hg hinit hsplit hafter,
    fun g hg r hr hkind => slotHolds (hrel.function g hg r hr hkind) (relocated_of_mem hg hr hkind),
    slotErrors_eq_nil hrel⟩
  · rw [h.stackBase]
    exact (h.bounds hg).2.2.trans hround
  · rw [dataSegments] at hsegment
    split_ifs at hsegment with hdata
    · obtain rfl := List.mem_singleton.1 hsegment
      have hends : exactDataEnd m ≤ exactGlobalsEnd m := le_ends _ _
      have hend := h.dataEnd
      rw [Blob.length_bytes]
      omega
    · exact absurd hsegment List.not_mem_nil

/-- The layout is sound exactly when nothing wraps while the globals are placed, and the memory
    with its slack behind the heap base ends at most at `2 ^ 32`. -/
theorem layoutSound_iff (hrel : m.Relocatable 4) (hheap : exactHeapBase m < 2 ^ 32) :
    LayoutSound m ↔ GlobalsNoWrap m ∧ exactHeapBase m ≤ 2 ^ 32 - 2 ^ 20 := by
  refine ⟨fun hsound => ?_, fun ⟨hwrap, hle⟩ =>
    layoutSound_of_laid (laid_of_noWrap hwrap hheap) hrel hle⟩
  by_cases hwrap : GlobalsNoWrap m
  · refine ⟨hwrap, by_contra fun hlarge => ?_⟩
    have hlaid := laid_of_noWrap hwrap hheap
    rcases hlaid.not_pages hheap hlarge with hmany | hfew
    · exact hmany hsound.instantiates.1
    · rcases hlaid.exists_last with hnone | ⟨i, g, hg, hend⟩
      · rw [exactHeapBase, hnone] at hlarge
        exact hlarge (by decide)
      · exact absurd (hsound.fits i g hg) (not_le_of_gt (hend ▸ hfew))
  · obtain ⟨i, g, hg, hzero⟩ := exists_zero_of_wrap hwrap hheap
    have hbehind := hsound.behind i g hg
    rw [hzero] at hbehind
    exact absurd hbehind (by decide)

end

/-- A table of two pointers, one to a function and one to the global behind it. -/
def pointerPair : DataModule where
  pointerBits := 32
  functions := [{ name := "f", hasBody := true }]
  globalDefs := [
    { name := "zeros", size := 3, align := 2 },
    { name := "pair", size := 8, align := 4, init := List.replicate 8 0
      relocations := [{ kind := .functionAddr, target := 0 },
        { kind := .globalAddr, offset := 4, target := 0, addend := 1 }] }]

theorem pointerPair_sound : LayoutSound pointerPair :=
  (layoutSound_iff ⟨by decide, by decide, by decide, by decide⟩ (by decide)).2
    ⟨⟨by decide, by decide, trivial⟩, by decide⟩

/-- A global of almost four gigabytes. -/
def largeGlobal : DataModule where
  pointerBits := 32
  globalDefs := [{ name := "large", size := 4293900000 }]

/-- All addresses are below `2 ^ 32`, and the memory has 16 pages. -/
theorem largeGlobal_not_sound :
    largeGlobal.Relocatable 4 ∧ exactHeapBase largeGlobal = 4294949600 ∧
      globalAddress largeGlobal 0 = 1024 ∧ memoryMinPages largeGlobal = 16 ∧
      ¬LayoutSound largeGlobal := by
  refine ⟨⟨by decide, by decide, by decide, by decide⟩, by decide, by decide, by decide,
    fun h => ?_⟩
  have hfits := h.fits 0 _ rfl
  exact absurd hfits (by decide)

end Mirage.Wasm
