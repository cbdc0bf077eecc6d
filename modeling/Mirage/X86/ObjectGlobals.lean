import Mirage.Elf.Faithful
import Mirage.X86.Generate

/-!
# Globals in the object file

The globals of a module and the relocations of their initializers reach the object file,
whatever code is emitted between them (`globals_reach_file`). The globals of a section are a row
of extents, so that they are apart and aligned; the bytes of an initializer are where its
symbol says. The relocations are recorded before the functions have symbols, and the walk that
patches them stays in step with them (`fixFunctions_initRelocations`); what is emitted afterwards
adds symbols behind those that exist, gives functions their places and adds relocations in
`.text` only (`Grows`). So the entry that the reader of the file finds for a relocation is the
one of the function or global that the module names.

* `lays_placeGlobals`: the sections are filled in order, from `lays_placeGlobal` for one global;
* `foldl_modify`: a walk over one list that changes the entries of another in step;
* `grows_generate`, `wellFormed_generate`: what the rest of the backend leaves alone, and that
  the object is one the writer can write.
-/

namespace Mirage.X86.Generate

/-! ## Where the globals are -/

/-- The section of a global. -/
def homeOf (g : Global) : Elf.Section :=
  if g.init.isEmpty then .bss else if g.isConstant then .rodata else .data

theorem one_le_align (g : Global) : 0 < max 1 g.align := Nat.le_max_left 1 g.align

/-- What a global takes of its section. -/
def roomOf (g : Global) : Extent :=
  ⟨if g.init.isEmpty then max 1 g.size else g.init.length, max 1 g.align, one_le_align g⟩

/-- What the globals of a section take, in order. -/
def rooms (section_ : Elf.Section) (gs : List Global) : List Extent :=
  (gs.filter fun g => homeOf g = section_).map roomOf

/-- The size of a section. -/
def sectionEnd (section_ : Elf.Section) (gs : List Global) : Nat := ends 0 (rooms section_ gs)

/-- The alignments are numbers of 32 bits, and the sections are not too large. -/
structure PlacesFit (gs : List Global) : Prop where
  align : ∀ g ∈ gs, g.align < 2 ^ 32
  bss : sectionEnd .bss gs < 2 ^ 63
  data : sectionEnd .data gs < 2 ^ 64
  rodata : sectionEnd .rodata gs < 2 ^ 64

theorem rooms_concat (section_ : Elf.Section) (gs : List Global) (g : Global) :
    rooms section_ (gs ++ [g]) =
      rooms section_ gs ++ if homeOf g = section_ then [roomOf g] else [] := by
  rw [rooms, List.filter_append, List.map_append, rooms]
  by_cases h : homeOf g = section_
  · simp [h]
  · simp [h]

theorem sectionEnd_concat (section_ : Elf.Section) (gs : List Global) (g : Global) :
    sectionEnd section_ (gs ++ [g]) = if homeOf g = section_
      then roundUp (sectionEnd section_ gs) (roomOf g).align + (roomOf g).size
      else sectionEnd section_ gs := by
  rw [sectionEnd, rooms_concat, ends_append, ← sectionEnd]
  split
  · rfl
  · rfl

theorem sectionEnd_le (section_ : Elf.Section) (gs : List Global) (g : Global) :
    sectionEnd section_ gs ≤ sectionEnd section_ (gs ++ [g]) := by
  rw [sectionEnd, sectionEnd, rooms_concat, ends_append]
  exact le_ends _ _

theorem PlacesFit.front {gs : List Global} {g : Global} (h : PlacesFit (gs ++ [g])) :
    PlacesFit gs :=
  ⟨fun g' hg' => h.align g' (List.mem_append_left _ hg'),
    (sectionEnd_le .bss gs g).trans_lt h.bss, (sectionEnd_le .data gs g).trans_lt h.data,
    (sectionEnd_le .rodata gs g).trans_lt h.rodata⟩

/-- The globals of a section with their offsets. -/
def rows (section_ : Elf.Section) (gs : List Global) (placed : List (Elf.Section × BitVec 64)) :
    List (Extent × Nat) :=
  ((gs.zip placed).filter fun r => homeOf r.1 = section_).map fun r => (roomOf r.1, r.2.2.toNat)

/-- The bytes of the sections that globals with an initializer are in. -/
def bytesOf (o : Elf.Object) : Elf.Section → Option (List Byte)
  | .data => some o.data
  | .rodata => some o.rodata
  | _ => none

/-- The globals are placed as their sections are filled. -/
structure Lays (gs : List Global) (s : GlobalLayout) : Prop where
  length : s.placed.length = gs.length
  globalSymbols : s.globalSymbols = (List.range gs.length).map (BitVec.ofNat 32)
  symbols : s.object.symbols = List.zipWith globalSymbol gs s.placed
  relocations : s.object.relocations = []
  text : s.object.text = []
  bss : s.object.bssSize.toNat = sectionEnd .bss gs
  data : s.object.data.length = sectionEnd .data gs
  rodata : s.object.rodata.length = sectionEnd .rodata gs
  home : ∀ r ∈ gs.zip s.placed, r.2.1 = homeOf r.1
  content : ∀ r ∈ gs.zip s.placed, ∀ bytes, bytesOf s.object (homeOf r.1) = some bytes →
    slice bytes r.2.2.toNat r.1.init.length = some r.1.init
  placed : ∀ section_, Placed 0 (sectionEnd section_ gs) (rows section_ gs s.placed)

theorem length_padTo' (align : Nat) (bytes : List Byte) :
    (Elf.padTo align bytes).length = roundUp bytes.length (max 1 align) := by
  rcases Nat.eq_zero_or_pos align with rfl | h
  · simp [Elf.padTo, roundUp]
  · rw [Elf.length_padTo h, Nat.max_eq_right h]

/-- The offset of a zero-initialized global. -/
theorem bssOffset_eq {size : BitVec 64} {align : Nat} (hpos : 0 < align) (halign : align < 2 ^ 32)
    (hsize : size.toNat < 2 ^ 63) (hlt : roundUp size.toNat align < 2 ^ 64) :
    ((size + BitVec.ofNat 64 align - 1) / BitVec.ofNat 64 align * BitVec.ofNat 64 align).toNat =
      roundUp size.toNat align := by
  have halignNat : (BitVec.ofNat 64 align).toNat = align := by
    rw [BitVec.toNat_ofNat]
    omega
  have hsum : (size + BitVec.ofNat 64 align - 1).toNat = size.toNat + align - 1 := by
    rw [BitVec.toNat_sub, BitVec.toNat_add, halignNat, show (1 : BitVec 64).toNat = 1 from rfl]
    omega
  rw [BitVec.toNat_mul, BitVec.toNat_udiv, hsum, halignNat, ← roundUp, Nat.mod_eq_of_lt hlt]

theorem rows_concat {gs : List Global} {placed : List (Elf.Section × BitVec 64)}
    (h : placed.length = gs.length) (section_ : Elf.Section) (g : Global)
    (place : Elf.Section × BitVec 64) :
    rows section_ (gs ++ [g]) (placed ++ [place]) = rows section_ gs placed ++
      if homeOf g = section_ then [(roomOf g, place.2.toNat)] else [] := by
  rw [rows, List.zip_append h.symm, List.filter_append, List.map_append, ← rows]
  by_cases hhome : homeOf g = section_
  · simp [hhome]
  · simp [hhome]

/-- A section is filled by the globals whose home it is. -/
theorem placed_concat {gs : List Global} {s : GlobalLayout} (h : Lays gs s) {g : Global}
    {place : Elf.Section × BitVec 64}
    (hplace : place.2.toNat = roundUp (sectionEnd (homeOf g) gs) (roomOf g).align)
    (section_ : Elf.Section) :
    Placed 0 (sectionEnd section_ (gs ++ [g]))
      (rows section_ (gs ++ [g]) (s.placed ++ [place])) := by
  rw [rows_concat h.length, sectionEnd_concat]
  by_cases hhome : homeOf g = section_
  · subst hhome
    rw [if_pos rfl, if_pos rfl, hplace]
    exact (h.placed (homeOf g)).concat (roomOf g)
  · rw [if_neg hhome, if_neg hhome, List.append_nil]
    exact h.placed section_

/-- What placing a global does to the object. -/
structure Places (gs : List Global) (g : Global) (o : Elf.Object)
    (r : (Elf.Section × BitVec 64) × Elf.Object) : Prop where
  home : r.1.1 = homeOf g
  offset : r.1.2.toNat = roundUp (sectionEnd (homeOf g) gs) (roomOf g).align
  symbols : r.2.symbols = o.symbols
  relocations : r.2.relocations = o.relocations
  text : r.2.text = o.text
  bss : r.2.bssSize.toNat = sectionEnd .bss (gs ++ [g])
  data : r.2.data.length = sectionEnd .data (gs ++ [g])
  rodata : r.2.rodata.length = sectionEnd .rodata (gs ++ [g])
  content : ∀ bytes, bytesOf r.2 (homeOf g) = some bytes →
    slice bytes r.1.2.toNat g.init.length = some g.init
  grows : ∀ section_ bytes, bytesOf r.2 section_ = some bytes →
    ∃ front after, bytesOf o section_ = some front ∧ bytes = front ++ after

theorem toNat_placeBytes {into bytes : List Byte} {align : Nat}
    (h : roundUp into.length (max 1 align) + bytes.length < 2 ^ 64) :
    (placeBytes into bytes align).1.toNat = roundUp into.length (max 1 align) := by
  show (BitVec.ofNat 64 (Elf.padTo align into).length).toNat = _
  rw [length_padTo', BitVec.toNat_ofNat, Nat.mod_eq_of_lt (by omega)]

theorem length_placeBytes (into bytes : List Byte) (align : Nat) :
    (placeBytes into bytes align).2.length =
      roundUp into.length (max 1 align) + bytes.length := by
  show (Elf.padTo align into ++ bytes).length = _
  rw [List.length_append, length_padTo']

/-- The bytes are found where they were put. -/
theorem slice_placeBytes {into bytes : List Byte} {align : Nat}
    (h : roundUp into.length (max 1 align) + bytes.length < 2 ^ 64) :
    slice (placeBytes into bytes align).2 (placeBytes into bytes align).1.toNat bytes.length =
      some bytes := by
  have hslice := slice_eq (Elf.padTo align into) bytes []
  rw [List.append_nil, length_padTo'] at hslice
  rw [toNat_placeBytes h]
  exact hslice

theorem exists_placeBytes (into bytes : List Byte) (align : Nat) :
    ∃ after, (placeBytes into bytes align).2 = into ++ after :=
  ⟨List.replicate (roundUp into.length align - into.length) 0 ++ bytes, List.append_assoc _ _ _⟩

theorem places_placeData {gs : List Global} {s : GlobalLayout} {g : Global} (h : Lays gs s)
    (hfit : PlacesFit (gs ++ [g])) : Places gs g s.object (placeData s.object g) := by
  have hbss := hfit.bss
  have hdata := hfit.data
  have hrodata := hfit.rodata
  have halign := hfit.align g (by simp)
  have hends := fun section_ => sectionEnd_concat section_ gs g
  by_cases hinit : g.init.isEmpty = true
  · have hhome : homeOf g = .bss := if_pos hinit
    have hroom : roomOf g = ⟨max 1 g.size, max 1 g.align, by omega⟩ := by simp [roomOf, hinit]
    have hbssEnd := hends .bss
    have hdataEnd := hends .data
    have hrodataEnd := hends .rodata
    rw [hhome] at hbssEnd hdataEnd hrodataEnd
    rw [if_pos rfl, hroom] at hbssEnd
    rw [if_neg (by decide)] at hdataEnd hrodataEnd
    simp only at hbssEnd
    have hoffset := @bssOffset_eq s.object.bssSize _ (one_le_align g) (by omega)
      (by rw [h.bss]; exact (sectionEnd_le .bss gs g).trans_lt hbss)
      (by rw [h.bss]; omega)
    rw [h.bss] at hoffset
    rw [placeData, if_pos hinit]
    refine ⟨hhome.symm, ?_, rfl, rfl, rfl, ?_, ?_, ?_, fun bytes hbytes => ?_,
      fun section_ bytes hbytes => ⟨bytes, [], ?_, (List.append_nil _).symm⟩⟩
    · rw [hhome, hroom]
      exact hoffset
    · rw [BitVec.toNat_add, hoffset, BitVec.toNat_ofNat, hbssEnd]
      omega
    · rw [hdataEnd, ← h.data]
    · rw [hrodataEnd, ← h.rodata]
    · rw [hhome] at hbytes
      cases hbytes
    · cases section_ <;> exact hbytes
  · have hroom : roomOf g = ⟨g.init.length, max 1 g.align, by omega⟩ := by simp [roomOf, hinit]
    rw [placeData, if_neg hinit]
    by_cases hconstant : g.isConstant = true
    · have hhome : homeOf g = .rodata := by rw [homeOf, if_neg hinit, if_pos hconstant]
      have hbssEnd := hends .bss
      have hdataEnd := hends .data
      have hrodataEnd := hends .rodata
      rw [hhome] at hbssEnd hdataEnd hrodataEnd
      rw [if_pos rfl, hroom, ← h.rodata] at hrodataEnd
      rw [if_neg (by decide)] at hbssEnd hdataEnd
      rw [if_pos hconstant]
      refine ⟨hhome.symm, ?_, rfl, rfl, rfl, ?_, ?_, ?_, fun bytes hbytes => ?_,
        fun section_ bytes hbytes => ?_⟩
      · rw [hhome, hroom, ← h.rodata]
        exact toNat_placeBytes (hrodataEnd ▸ hrodata)
      · rw [hbssEnd, ← h.bss]
      · rw [hdataEnd, ← h.data]
      · rw [hrodataEnd]
        exact length_placeBytes s.object.rodata g.init g.align
      · rw [hhome] at hbytes
        obtain rfl := Option.some.inj hbytes
        exact slice_placeBytes (hrodataEnd ▸ hrodata)
      · obtain ⟨after, hafter⟩ := exists_placeBytes s.object.rodata g.init g.align
        cases section_ with
        | rodata => exact ⟨_, after, rfl, (Option.some.inj hbytes).symm.trans hafter⟩
        | data => exact ⟨bytes, [], hbytes, (List.append_nil _).symm⟩
        | undefined | text | bss => cases hbytes
    · have hhome : homeOf g = .data := by rw [homeOf, if_neg hinit, if_neg hconstant]
      have hbssEnd := hends .bss
      have hdataEnd := hends .data
      have hrodataEnd := hends .rodata
      rw [hhome] at hbssEnd hdataEnd hrodataEnd
      rw [if_pos rfl, hroom, ← h.data] at hdataEnd
      rw [if_neg (by decide)] at hbssEnd hrodataEnd
      rw [if_neg hconstant]
      refine ⟨hhome.symm, ?_, rfl, rfl, rfl, ?_, ?_, ?_, fun bytes hbytes => ?_,
        fun section_ bytes hbytes => ?_⟩
      · rw [hhome, hroom, ← h.data]
        exact toNat_placeBytes (hdataEnd ▸ hdata)
      · rw [hbssEnd, ← h.bss]
      · rw [hdataEnd]
        exact length_placeBytes s.object.data g.init g.align
      · rw [hrodataEnd, ← h.rodata]
      · rw [hhome] at hbytes
        obtain rfl := Option.some.inj hbytes
        exact slice_placeBytes (hdataEnd ▸ hdata)
      · obtain ⟨after, hafter⟩ := exists_placeBytes s.object.data g.init g.align
        cases section_ with
        | data => exact ⟨_, after, rfl, (Option.some.inj hbytes).symm.trans hafter⟩
        | rodata => exact ⟨bytes, [], hbytes, (List.append_nil _).symm⟩
        | undefined | text | bss => cases hbytes

/-- Placing one more global. -/
theorem lays_placeGlobal {gs : List Global} {s : GlobalLayout} {g : Global} (h : Lays gs s)
    (hfit : PlacesFit (gs ++ [g])) : Lays (gs ++ [g]) (placeGlobal s g) := by
  have hp := places_placeData h hfit
  obtain ⟨place, object, hr⟩ : ∃ place object, placeData s.object g = (place, object) := ⟨_, _, rfl⟩
  rw [hr] at hp
  have hcount : object.symbols.length = gs.length := by
    rw [hp.symbols, h.symbols, List.length_zipWith, h.length, Nat.min_self]
  have hstep : placeGlobal s g =
      ⟨{ object with symbols := object.symbols ++ [globalSymbol g place] }, s.placed ++ [place],
        s.globalSymbols ++ [BitVec.ofNat 32 object.symbols.length]⟩ := by
    rw [placeGlobal, hr]
  rw [hstep]
  refine ⟨?_, ?_, ?_, ?_, ?_, hp.bss, hp.data, hp.rodata, ?_, ?_, fun section_ =>
    placed_concat h hp.offset section_⟩
  · simp [h.length]
  · rw [h.globalSymbols, hcount, List.length_append, List.length_singleton, List.range_succ,
      List.map_append, List.map_singleton]
  · rw [hp.symbols, h.symbols, List.zipWith_append h.length.symm]
    rfl
  · exact hp.relocations.trans h.relocations
  · exact hp.text.trans h.text
  · rw [List.zip_append h.length.symm]
    exact List.forall_mem_append.2 ⟨h.home, List.forall_mem_singleton.2 hp.home⟩
  · rw [List.zip_append h.length.symm]
    refine List.forall_mem_append.2 ⟨fun r hr bytes hbytes => ?_,
      List.forall_mem_singleton.2 fun bytes hbytes => hp.content bytes hbytes⟩
    obtain ⟨front, after, hfront, rfl⟩ := hp.grows _ _ hbytes
    exact slice_append after (h.content r hr front hfront)

/-- The globals are placed. -/
theorem lays_placeGlobals {gs : List Global} (hfit : PlacesFit gs) : Lays gs (placeGlobals gs) := by
  induction gs using List.reverseRecOn with
  | nil =>
    exact ⟨rfl, rfl, rfl, rfl, rfl, rfl, rfl, rfl, fun _ hr => absurd hr List.not_mem_nil,
      fun _ hr => absurd hr List.not_mem_nil,
      fun _ => ⟨fun _ h => absurd h List.not_mem_nil, .nil,
        fun _ h => absurd h List.not_mem_nil,
        fun _ h => absurd h List.not_mem_nil, le_rfl⟩⟩
  | append_singleton gs g ih =>
    have hstep : placeGlobals (gs ++ [g]) = placeGlobal (placeGlobals gs) g := by
      rw [placeGlobals, List.foldl_append]
      rfl
    rw [hstep]
    exact lays_placeGlobal (ih hfit.front) hfit

/-! ## The second walk -/

section

variable {α β : Type} {f : α → β → β}

/-- A walk over one list that changes the entries of another at the same places. -/
theorem foldl_modify (xs : List α) (front ys : List β) (h : ys.length = xs.length) :
    (xs.zipIdx front.length).foldl (fun ys r => ys.modify r.2 (f r.1)) (front ++ ys) =
      front ++ List.zipWith f xs ys := by
  induction xs generalizing front ys with
  | nil =>
    obtain rfl := List.eq_nil_of_length_eq_zero h
    rfl
  | cons x xs ih =>
    rcases ys with _ | ⟨y, ys⟩
    · cases h
    · have hmodify : (front ++ y :: ys).modify front.length (f x) = (front ++ [f x y]) ++ ys := by
        induction front with
        | nil => rfl
        | cons z front ihf => exact congrArg (z :: ·) ihf
      have hlength : front.length + 1 = (front ++ [f x y]).length := by simp
      rw [List.zipIdx_cons, List.foldl_cons, hmodify, hlength,
        ih (front ++ [f x y]) ys (Nat.succ.inj h), List.append_assoc]
      rfl

/-- What is recorded for the entries of several lists and changed in step with them. -/
theorem zipWith_flatMap {γ : Type} {piece : γ → List α} {g : γ → α → β} (rs : List γ) :
    List.zipWith f (rs.flatMap piece) (rs.flatMap fun r => (piece r).map (g r)) =
      rs.flatMap fun r => (piece r).map fun x => f x (g r x) := by
  induction rs with
  | nil => rfl
  | cons r rs ih =>
    rw [List.flatMap_cons, List.flatMap_cons, List.flatMap_cons,
      List.zipWith_append (by rw [List.length_map]), ih, List.zipWith_map_right]
    congr 1
    exact List.zipWith_self

end

/-- The relocation of an initializer, with its symbol. -/
def relocationOf (s : GlobalLayout) (functionSymbols : List (BitVec 32))
    (place : Elf.Section × BitVec 64) (r : Mirage.Relocation) : Elf.Relocation where
  in_ := place.1
  offset := place.2 + BitVec.ofNat 64 r.offset
  symbol := match r.kind with
    | .functionAddr => functionSymbols.getD r.target 0
    | .globalAddr => s.globalSymbols.getD r.target 0
  type := rX86_64_64
  addend := r.addend

/-- The change the second walk makes to a relocation. -/
def withFunction (functionSymbols : List (BitVec 32)) (r : Mirage.Relocation)
    (rel : Elf.Relocation) : Elf.Relocation :=
  if r.kind = .functionAddr then { rel with symbol := functionSymbols.getD r.target 0 } else rel

theorem fixFunctions_eq (functionSymbols : List (BitVec 32)) (gs : List Global)
    (rels : List Elf.Relocation) : fixFunctions functionSymbols gs rels =
      (gs.flatMap Global.relocations).zipIdx.foldl
        (fun rels r => rels.modify r.2 (withFunction functionSymbols r.1)) rels := by
  refine List.foldl_ext _ _ _ fun rels r _ => ?_
  by_cases hkind : r.1.kind = .functionAddr
  · rw [if_pos hkind]
    congr 1
    funext rel
    rw [withFunction, if_pos hkind]
  · have hid : withFunction functionSymbols r.1 = id := by
      funext rel
      rw [withFunction, if_neg hkind, id]
    rw [if_neg hkind, hid, List.modify_id]

/-- The second walk stays in step with the first: every relocation has its symbol. -/
theorem fixFunctions_initRelocations {s : GlobalLayout} {gs : List Global}
    (h : s.placed.length = gs.length) (functionSymbols : List (BitVec 32)) :
    fixFunctions functionSymbols gs (initRelocations s gs) =
      (gs.zip s.placed).flatMap fun r =>
        r.1.relocations.map (relocationOf s functionSymbols r.2) := by
  have hgs : gs.flatMap Global.relocations =
      (gs.zip s.placed).flatMap fun r => r.1.relocations := by
    conv_lhs => rw [← @List.map_fst_zip _ _ gs s.placed (by omega), List.flatMap_map]
  have hlength : (initRelocations s gs).length = (gs.flatMap Global.relocations).length := by
    rw [hgs, initRelocations, List.length_flatMap, List.length_flatMap]
    simp only [List.length_map]
  have hwalk := foldl_modify (f := withFunction functionSymbols)
    (gs.flatMap Global.relocations) [] (initRelocations s gs) hlength
  rw [List.nil_append, List.nil_append] at hwalk
  rw [fixFunctions_eq]
  refine hwalk.trans ?_
  rw [hgs, initRelocations, zipWith_flatMap]
  refine List.flatMap_congr fun r _ => List.map_congr_left fun x _ => ?_
  rcases x with ⟨kind, offset, target, addend⟩
  cases kind <;> rfl

/-! ## What the code leaves alone -/

/-- A symbol of a function may get its place; all other symbols stay. -/
structure SameSymbol (sym sym' : Elf.Symbol) : Prop where
  name : sym'.name = sym.name
  section_ : sym'.section_ = sym.section_
  isFunction : sym'.isFunction = sym.isFunction
  same : sym.isFunction = false → sym' = sym

theorem SameSymbol.refl (sym : Elf.Symbol) : SameSymbol sym sym := ⟨rfl, rfl, rfl, fun _ => rfl⟩

theorem SameSymbol.trans {a b c : Elf.Symbol} (h : SameSymbol a b) (h' : SameSymbol b c) :
    SameSymbol a c :=
  ⟨h'.name.trans h.name, h'.section_.trans h.section_, h'.isFunction.trans h.isFunction,
    fun ha => (h'.same (h.isFunction.trans ha)).trans (h.same ha)⟩

/-- The object grows by code: its data and the relocations in them stay, and every symbol keeps
    its index. -/
structure Grows (o o' : Elf.Object) : Prop where
  data : o'.data = o.data
  rodata : o'.rodata = o.rodata
  bssSize : o'.bssSize = o.bssSize
  aligns : (o'.textAlign, o'.dataAlign, o'.rodataAlign, o'.bssAlign) =
    (o.textAlign, o.dataAlign, o.rodataAlign, o.bssAlign)
  relocations : ∃ code, o'.relocations = o.relocations ++ code ∧ ∀ rel ∈ code, rel.in_ = .text
  symbols : ∀ (i : Nat) (sym), o.symbols[i]? = some sym → ∃ sym', o'.symbols[i]? = some sym' ∧
    SameSymbol sym sym'

theorem Grows.refl (o : Elf.Object) : Grows o o :=
  ⟨rfl, rfl, rfl, rfl, ⟨[], (List.append_nil _).symm, fun _ h => absurd h List.not_mem_nil⟩,
    fun _ sym h => ⟨sym, h, .refl sym⟩⟩

theorem Grows.trans {a b c : Elf.Object} (h : Grows a b) (h' : Grows b c) : Grows a c := by
  obtain ⟨code, hcode, htext⟩ := h.relocations
  obtain ⟨code', hcode', htext'⟩ := h'.relocations
  refine ⟨h'.data.trans h.data, h'.rodata.trans h.rodata, h'.bssSize.trans h.bssSize,
    h'.aligns.trans h.aligns, ⟨code ++ code', ?_, List.forall_mem_append.2 ⟨htext, htext'⟩⟩,
    fun i sym hsym => ?_⟩
  · rw [hcode', hcode, List.append_assoc]
  · obtain ⟨sym', hsym', hsame⟩ := h.symbols i sym hsym
    obtain ⟨sym'', hsym'', hsame'⟩ := h'.symbols i sym' hsym'
    exact ⟨sym'', hsym'', hsame.trans hsame'⟩

theorem getElem?_append_of_some {α : Type} {xs ys : List α} {i : Nat} {x : α}
    (h : xs[i]? = some x) : (xs ++ ys)[i]? = some x := by
  rw [List.getElem?_append_left (List.getElem?_eq_some_iff.1 h).1, h]

theorem grows_runtimeSymbol (o : Elf.Object) (name : String) :
    Grows o (runtimeSymbol o name).2 := by
  rw [runtimeSymbol]
  split
  · exact .refl o
  · exact ⟨rfl, rfl, rfl, rfl, ⟨[], (List.append_nil _).symm, fun _ h => absurd h List.not_mem_nil⟩,
      fun i sym h => ⟨sym, getElem?_append_of_some h, .refl sym⟩⟩

theorem grows_addCode {o : Elf.Object} {symbol : Nat} (enc : Encoder)
    (h : ∀ sym, o.symbols[symbol]? = some sym → sym.isFunction = true) :
    Grows o (addCode o symbol enc) := by
  refine ⟨rfl, rfl, rfl, rfl, ⟨_, rfl, fun rel hrel => ?_⟩, fun i sym hsym => ?_⟩
  · obtain ⟨r, -, rfl⟩ := List.mem_map.1 hrel
    rfl
  · rcases eq_or_ne symbol i with rfl | hne
    · have hfunction := h sym hsym
      refine ⟨{ sym with
        value := BitVec.ofNat 64 (padCode o.text).length
        size := BitVec.ofNat 64 enc.code.length }, ?_, rfl, rfl, rfl, fun hfalse => ?_⟩
      · rw [addCode, List.getElem?_modify_eq, hsym]
        rfl
      · rw [hfunction] at hfalse
        cases hfalse
    · refine ⟨sym, ?_, .refl sym⟩
      rw [addCode, List.getElem?_modify_ne _ _ hne, hsym]

theorem grows_addBodies {emit : Nat → Option Emitted} {first : Nat} (fns : List (Function × Nat))
    {r : Elf.Object × Bool} (h : ∀ fn ∈ fns, ∀ sym, r.1.symbols[first + fn.2]? = some sym →
      sym.isFunction = true) : Grows r.1 (addBodies emit first fns r).1 := by
  induction fns generalizing r with
  | nil => exact .refl r.1
  | cons fn fns ih =>
    obtain ⟨hfn, hfns⟩ := List.forall_mem_cons.1 h
    rcases r with ⟨o, failed⟩
    rw [addBodies]
    split
    · split
      · exact .refl o
      · rename_i e _
        have hcode := grows_addCode e.encoder hfn
        refine hcode.trans (ih (r := (addCode o (first + fn.2) e.encoder, _))
          fun fn' hfn' sym hsym => ?_)
        obtain ⟨sym', hsym', hsame⟩ : ∃ sym', o.symbols[first + fn'.2]? = some sym' ∧
            SameSymbol sym' sym := by
          have hlt : first + fn'.2 < o.symbols.length := by
            have := (List.getElem?_eq_some_iff.1 hsym).1
            rwa [addCode, List.length_modify] at this
          obtain ⟨sym'', hsym'', hsame⟩ := hcode.symbols _ _ (List.getElem?_eq_getElem hlt)
          obtain rfl := Option.some.inj (hsym''.symm.trans hsym)
          exact ⟨_, List.getElem?_eq_getElem hlt, hsame⟩
        rw [hsame.isFunction]
        exact hfns fn' hfn' sym' hsym'
    · exact ih hfns

theorem grows_addStart (o : Elf.Object) {relocation : Nat → Relocation → Elf.Relocation}
    (h : ∀ start r, (relocation start r).in_ = .text) (calls : List Call) :
    Grows o (addStart o relocation calls) := by
  refine ⟨rfl, rfl, rfl, rfl, ⟨_, rfl, fun rel hrel => ?_⟩, fun i sym hsym =>
    ⟨sym, getElem?_append_of_some hsym, .refl sym⟩⟩
  obtain ⟨r, -, rfl⟩ := List.mem_map.1 hrel
  exact h _ r

/-! ## The symbols of the module -/

theorem symbols_declared (m : LinkModule) (hfit : PlacesFit m.globalDefs) :
    (declared m).symbols = List.zipWith globalSymbol m.globalDefs (placeGlobals m.globalDefs).placed
      ++ m.functions.zipIdx.map fun r => functionSymbol m r.1 r.2 := by
  rw [declared, (lays_placeGlobals hfit).symbols]

theorem length_globalSymbols {m : LinkModule} (hfit : PlacesFit m.globalDefs) :
    (placeGlobals m.globalDefs).object.symbols.length = m.globalDefs.length := by
  have h := lays_placeGlobals hfit
  rw [h.symbols, List.length_zipWith, h.length, Nat.min_self]

/-- The symbol of a global. -/
theorem symbol_global {m : LinkModule} (hfit : PlacesFit m.globalDefs) {i : Nat}
    (h : i < m.globalDefs.length) : ∃ g place, m.globalDefs[i]? = some g ∧
      (placeGlobals m.globalDefs).placed[i]? = some place ∧
      (declared m).symbols[i]? = some (globalSymbol g place) := by
  have hl := (lays_placeGlobals hfit).length
  refine ⟨_, _, List.getElem?_eq_getElem h, List.getElem?_eq_getElem (hl ▸ h), ?_⟩
  rw [symbols_declared m hfit, List.getElem?_append_left (by rw [List.length_zipWith]; omega),
    List.getElem?_zipWith, List.getElem?_eq_getElem h, List.getElem?_eq_getElem (hl ▸ h)]

/-- The symbol of a function. -/
theorem symbol_function {m : LinkModule} (hfit : PlacesFit m.globalDefs) {i : Nat} {fn : Function}
    (h : m.functions[i]? = some fn) :
    (declared m).symbols[m.globalDefs.length + i]? = some (functionSymbol m fn i) := by
  have hl := (lays_placeGlobals hfit).length
  have hcount : (List.zipWith globalSymbol m.globalDefs
      (placeGlobals m.globalDefs).placed).length = m.globalDefs.length := by
    rw [List.length_zipWith, hl, Nat.min_self]
  rw [symbols_declared m hfit, List.getElem?_append_right (by omega), hcount,
    Nat.add_sub_cancel_left, List.getElem?_map, List.getElem?_zipIdx, h, Nat.zero_add]
  rfl

theorem grows_withRuntime (m : LinkModule) : Grows (declared m) (withRuntime m).2 := by
  rw [withRuntime]
  exact (grows_runtimeSymbol _ _).trans ((grows_runtimeSymbol _ _).trans
    ((grows_runtimeSymbol _ _).trans (grows_runtimeSymbol _ _)))

/-- Whatever the code of the functions is, the globals, their relocations and the symbols stay. -/
theorem grows_generate {m : LinkModule} (hfit : PlacesFit m.globalDefs) (emit : Emit)
    (testInfo testRunner : Option Nat) :
    Grows (declared m) (generate m emit testInfo testRunner).1 := by
  have hruntime := grows_withRuntime m
  have hfunction : ∀ fn ∈ m.functions.zipIdx, ∀ sym,
      (withRuntime m).2.symbols[(placeGlobals m.globalDefs).object.symbols.length + fn.2]? =
        some sym → sym.isFunction = true := by
    intro fn hfn sym hsym
    have hdeclared := symbol_function hfit
      (by simpa using List.mk_mem_zipIdx_iff_getElem?.1 hfn)
    obtain ⟨sym', hsym', hsame⟩ := hruntime.symbols _ _ hdeclared
    rw [length_globalSymbols hfit] at hsym
    obtain rfl := Option.some.inj (hsym'.symm.trans hsym)
    exact hsame.isFunction
  have hbodies := @grows_addBodies (emit (withRuntime m).1) _ m.functions.zipIdx
    ((withRuntime m).2, false) hfunction
  have h := hruntime.trans hbodies
  rcases hw : withRuntime m with ⟨symbols, o⟩
  rw [hw] at h
  rcases hb : addBodies (emit symbols) (placeGlobals m.globalDefs).object.symbols.length
    m.functions.zipIdx (o, false) with ⟨o', failed⟩
  simp only [hb] at h
  simp only [generate, hw, hb]
  split
  · exact h
  · split
    · exact h.trans ((grows_runtimeSymbol _ _).trans (grows_addStart _ (fun _ _ => rfl) _))
    · split
      · exact h.trans ((grows_runtimeSymbol _ _).trans (grows_addStart _ (fun _ _ => rfl) _))
      · exact h

/-! ## The object is well formed -/

/-- All symbols the code may refer to. -/
def Symbols.all (s : Symbols) : List (BitVec 32) :=
  s.functions ++ s.globals ++ [s.memcpy, s.memset, s.fmod, s.fmodf]

/-- The object is well formed and has the symbols. -/
structure Ready (symbols : List (BitVec 32)) (o : Elf.Object) : Prop where
  wellFormed : o.WellFormed
  symbols : ∀ v ∈ symbols, v.toNat < o.symbols.length

/-- The symbol a call names. -/
def symbolOf : Call → Option (BitVec 32)
  | .callSym symbol => some symbol
  | .leaRip _ symbol _ => some symbol
  | _ => none

theorem symbols_call (e : Encoder) (c : Call) :
    (e.call c).relocations.map Relocation.symbol =
      e.relocations.map Relocation.symbol ++ (symbolOf c).toList := by
  cases c <;> simp [Encoder.call, symbolOf]

theorem symbols_run (e : Encoder) (calls : List Call) :
    (e.run calls).relocations.map Relocation.symbol =
      e.relocations.map Relocation.symbol ++ calls.filterMap symbolOf := by
  induction calls generalizing e with
  | nil => exact (List.append_nil _).symm
  | cons c calls ih =>
    have hstep : e.run (c :: calls) = (e.call c).run calls := rfl
    rw [hstep, ih, symbols_call, List.append_assoc]
    cases hc : symbolOf c with
    | none => rw [List.filterMap_cons_none hc]; rfl
    | some v => rw [List.filterMap_cons_some hc]; rfl

theorem Ready.mono {symbols symbols' : List (BitVec 32)} {o : Elf.Object} (h : Ready symbols o)
    (hsub : ∀ v ∈ symbols', v ∈ symbols) : Ready symbols' o :=
  ⟨h.wellFormed, fun v hv => h.symbols v (hsub v hv)⟩

theorem ready_runtimeSymbol {symbols : List (BitVec 32)} {o : Elf.Object} {name : String}
    (h : Ready symbols o) (hname : 0 ∉ nameBytes name) :
    Ready (symbols ++ [(runtimeSymbol o name).1]) (runtimeSymbol o name).2 := by
  rw [runtimeSymbol]
  split
  · rename_i i hi
    refine ⟨h.wellFormed, List.forall_mem_append.2 ⟨h.symbols, List.forall_mem_singleton.2 ?_⟩⟩
    have hlt : i < o.symbols.length := (List.findIdx?_eq_some_iff_getElem.1 hi).1
    rw [BitVec.toNat_ofNat]
    exact (Nat.mod_le _ _).trans_lt hlt
  · have hw := h.wellFormed
    refine ⟨⟨hw.textAlign, hw.dataAlign, hw.rodataAlign, hw.bssAlign,
      List.forall_mem_append.2 ⟨hw.names, List.forall_mem_singleton.2 hname⟩, fun rel hrel => ?_⟩,
      fun v hv => ?_⟩
    · rw [List.length_append]
      exact (hw.relocations rel hrel).trans_le (Nat.le_add_right _ _)
    · rw [List.length_append, List.length_singleton]
      rcases List.mem_append.1 hv with hv | hv
      · exact (h.symbols v hv).trans_le (Nat.le_add_right _ _)
      · obtain rfl := List.mem_singleton.1 hv
        rw [BitVec.toNat_ofNat]
        exact (Nat.mod_le _ _).trans_lt (Nat.lt_succ_self _)

theorem ready_addCode {symbols : List (BitVec 32)} {o : Elf.Object} {symbol : Nat} {enc : Encoder}
    (h : Ready symbols o) (henc : ∀ r ∈ enc.relocations, r.symbol ∈ symbols) :
    Ready symbols (addCode o symbol enc) := by
  have hw := h.wellFormed
  have hlength : (addCode o symbol enc).symbols.length = o.symbols.length :=
    List.length_modify _ _ _
  refine ⟨⟨hw.textAlign, hw.dataAlign, hw.rodataAlign, hw.bssAlign, fun sym hsym => ?_,
    fun rel hrel => ?_⟩, fun v hv => hlength ▸ h.symbols v hv⟩
  · obtain ⟨i, hi⟩ := List.mem_iff_getElem?.1 hsym
    rw [addCode, List.getElem?_modify] at hi
    obtain ⟨sym', hsym', rfl⟩ := Option.map_eq_some_iff.1 hi
    have hname := hw.names sym' (List.mem_of_getElem? hsym')
    split <;> exact hname
  · rw [hlength]
    rcases List.mem_append.1 hrel with hrel | hrel
    · exact hw.relocations rel hrel
    · obtain ⟨r, hr, rfl⟩ := List.mem_map.1 hrel
      exact h.symbols _ (henc r hr)

theorem ready_addBodies {symbols : List (BitVec 32)} {emit : Nat → Option Emitted} {first : Nat}
    (hemit : ∀ i e, emit i = some e → ∀ r ∈ e.encoder.relocations, r.symbol ∈ symbols)
    (fns : List (Function × Nat)) {r : Elf.Object × Bool} (h : Ready symbols r.1) :
    Ready symbols (addBodies emit first fns r).1 := by
  induction fns generalizing r with
  | nil => exact h
  | cons fn fns ih =>
    rcases r with ⟨o, failed⟩
    rw [addBodies]
    split
    · split
      · exact h
      · rename_i e he
        exact ih (r := (_, _)) (ready_addCode h (hemit _ e he))
    · exact ih (r := (_, _)) h

theorem ready_addStart {symbols : List (BitVec 32)} {o : Elf.Object}
    {relocation : Nat → Relocation → Elf.Relocation} {calls : List Call} (h : Ready symbols o)
    (hsymbol : ∀ start r, (relocation start r).symbol = r.symbol)
    (hcalls : ∀ v ∈ calls.filterMap symbolOf, v.toNat < o.symbols.length) :
    (addStart o relocation calls).WellFormed := by
  have hw := h.wellFormed
  refine ⟨hw.textAlign, hw.dataAlign, hw.rodataAlign, hw.bssAlign,
    List.forall_mem_append.2 ⟨hw.names, List.forall_mem_singleton.2
      (by exact (by decide : 0 ∉ nameBytes "_start"))⟩, fun rel hrel => ?_⟩
  show rel.symbol.toNat < (o.symbols ++ [_]).length
  rw [List.length_append]
  refine Nat.lt_of_lt_of_le ?_ (Nat.le_add_right _ _)
  rcases List.mem_append.1 hrel with hrel | hrel
  · exact hw.relocations rel hrel
  · obtain ⟨r, hr, rfl⟩ := List.mem_map.1 hrel
    rw [hsymbol]
    refine hcalls _ ?_
    have hmem : r.symbol ∈ (({} : Encoder).run calls).relocations.map Relocation.symbol :=
      List.mem_map_of_mem hr
    rwa [symbols_run, List.map_nil, List.nil_append] at hmem

/-- The alignments of the sections are not zero. -/
structure AlignsPos (o : Elf.Object) : Prop where
  text : 0 < o.textAlign.toNat
  data : 0 < o.dataAlign.toNat
  rodata : 0 < o.rodataAlign.toNat
  bss : 0 < o.bssAlign.toNat

theorem maxAlign_pos {a : BitVec 64} {b : Nat} (ha : 0 < a.toNat) (hb : b < 2 ^ 64) :
    0 < (maxAlign a b).toNat := by
  have := a.isLt
  rw [maxAlign, BitVec.toNat_ofNat, Nat.mod_eq_of_lt (by omega)]
  omega

theorem alignsPos_placeData {o : Elf.Object} {g : Global} (h : AlignsPos o)
    (halign : g.align < 2 ^ 32) : AlignsPos (placeData o g).2 := by
  rw [placeData]
  split
  · exact ⟨h.text, h.data, h.rodata, maxAlign_pos h.bss (by omega)⟩
  · split
    · exact ⟨h.text, h.data, maxAlign_pos h.rodata (by omega), h.bss⟩
    · exact ⟨h.text, maxAlign_pos h.data (by omega), h.rodata, h.bss⟩

theorem alignsPos_placeGlobals {gs : List Global} (halign : ∀ g ∈ gs, g.align < 2 ^ 32) :
    AlignsPos (placeGlobals gs).object := by
  induction gs using List.reverseRecOn with
  | nil => exact ⟨by decide, by decide, by decide, by decide⟩
  | append_singleton gs g ih =>
    have hstep : placeGlobals (gs ++ [g]) = placeGlobal (placeGlobals gs) g := by
      rw [placeGlobals, List.foldl_append]
      rfl
    have h := alignsPos_placeData (ih fun g' hg' => halign g' (List.mem_append_left _ hg'))
      (halign g (by simp))
    rw [hstep]
    exact ⟨h.text, h.data, h.rodata, h.bss⟩

/-- The names of a module have no zeros. -/
structure Named (m : LinkModule) : Prop where
  globals : ∀ g ∈ m.globalDefs, 0 ∉ nameBytes g.name
  functions : ∀ fn ∈ m.functions, 0 ∉ nameBytes fn.name

/-- What a relocation of an initializer names: a symbol of the object. -/
def symbolIndex (m : LinkModule) (r : Mirage.Relocation) : Nat :=
  match r.kind with
  | .functionAddr => m.globalDefs.length + r.target
  | .globalAddr => r.target

/-- The relocations of the initializers are inside them and name functions and globals of the
    module; those of zero-initialized globals are none. -/
structure Relocates (m : LinkModule) : Prop where
  relocatable : m.Relocatable 8
  initialized : ∀ g ∈ m.globalDefs, g.init = [] → g.relocations = []

def functionSymbols (m : LinkModule) : List (BitVec 32) :=
  (List.range m.functions.length).map fun i =>
    BitVec.ofNat 32 ((placeGlobals m.globalDefs).object.symbols.length + i)

theorem relocations_declared {m : LinkModule} (hfit : PlacesFit m.globalDefs) :
    (declared m).relocations = (m.globalDefs.zip (placeGlobals m.globalDefs).placed).flatMap
      fun r => r.1.relocations.map
        (relocationOf (placeGlobals m.globalDefs) (functionSymbols m) r.2) :=
  fixFunctions_initRelocations (lays_placeGlobals hfit).length _

theorem getD_map_range {n i : Nat} {f : Nat → BitVec 32} (h : i < n) :
    ((List.range n).map f).getD i 0 = f i := by
  rw [List.getD_eq_getElem?_getD, List.getElem?_map, List.getElem?_range h]
  rfl

/-- The symbol of a relocation of an initializer. -/
theorem symbol_relocationOf {m : LinkModule} (hfit : PlacesFit m.globalDefs) (h : Relocates m)
    {g : Global} (hg : g ∈ m.globalDefs) {r : Mirage.Relocation} (hr : r ∈ g.relocations)
    (place : Elf.Section × BitVec 64) :
    (relocationOf (placeGlobals m.globalDefs) (functionSymbols m) place r).symbol =
      BitVec.ofNat 32 (symbolIndex m r) := by
  have hfunction := h.relocatable.function g hg r hr
  have htarget := h.relocatable.target g hg r hr
  have hglobals := (lays_placeGlobals hfit).globalSymbols
  rcases r with ⟨kind, offset, target, addend⟩
  cases kind with
  | functionAddr =>
    show (functionSymbols m).getD target 0 = BitVec.ofNat 32 (m.globalDefs.length + target)
    rw [functionSymbols, getD_map_range (hfunction rfl), length_globalSymbols hfit]
  | globalAddr =>
    show (placeGlobals m.globalDefs).globalSymbols.getD target 0 = BitVec.ofNat 32 target
    rw [hglobals, getD_map_range (htarget rfl)]

theorem length_symbols_declared {m : LinkModule} (hfit : PlacesFit m.globalDefs) :
    (declared m).symbols.length = m.globalDefs.length + m.functions.length := by
  have hl := (lays_placeGlobals hfit).length
  rw [symbols_declared m hfit, List.length_append, List.length_zipWith, hl, Nat.min_self,
    List.length_map, List.length_zipIdx]

theorem symbolIndex_lt {m : LinkModule} (h : Relocates m) {g : Global} (hg : g ∈ m.globalDefs)
    {r : Mirage.Relocation} (hr : r ∈ g.relocations) :
    symbolIndex m r < m.globalDefs.length + m.functions.length := by
  have hfunction := h.relocatable.function g hg r hr
  have htarget := h.relocatable.target g hg r hr
  rw [symbolIndex]
  split
  · rename_i hkind
    have := hfunction hkind
    omega
  · rename_i hkind
    have := htarget hkind
    omega

theorem wellFormed_declared {m : LinkModule} (hfit : PlacesFit m.globalDefs) (hnamed : Named m)
    (h : Relocates m) : (declared m).WellFormed := by
  have haligns := alignsPos_placeGlobals hfit.align
  refine ⟨haligns.text, haligns.data, haligns.rodata, haligns.bss, fun sym hsym => ?_,
    fun rel hrel => ?_⟩
  · rw [symbols_declared m hfit] at hsym
    rcases List.mem_append.1 hsym with hsym | hsym
    · obtain ⟨i, hi⟩ := List.mem_iff_getElem?.1 hsym
      obtain ⟨g, place, hg, -, rfl⟩ := List.getElem?_zipWith_eq_some.1 hi
      exact hnamed.globals g (List.mem_of_getElem? hg)
    · obtain ⟨r, hr, rfl⟩ := List.mem_map.1 hsym
      exact hnamed.functions r.1 (List.mem_of_getElem? ((List.mk_mem_zipIdx_iff_getElem?
        (x := r.1) (i := r.2)).1 hr))
  · rw [relocations_declared hfit] at hrel
    obtain ⟨r, hr, hrel⟩ := List.mem_flatMap.1 hrel
    obtain ⟨x, hx, rfl⟩ := List.mem_map.1 hrel
    have hg := (List.of_mem_zip hr).1
    rw [symbol_relocationOf hfit h hg hx, length_symbols_declared hfit, BitVec.toNat_ofNat]
    exact (Nat.mod_le _ _).trans_lt (symbolIndex_lt h hg hx)

theorem ready_declared {m : LinkModule} (hfit : PlacesFit m.globalDefs) (hnamed : Named m)
    (h : Relocates m) :
    Ready (functionSymbols m ++ (placeGlobals m.globalDefs).globalSymbols) (declared m) := by
  refine ⟨wellFormed_declared hfit hnamed h, fun v hv => ?_⟩
  rw [length_symbols_declared hfit]
  have hle : ∀ n, (BitVec.ofNat 32 n).toNat ≤ n := fun n => by
    rw [BitVec.toNat_ofNat]
    exact Nat.mod_le _ _
  rcases List.mem_append.1 hv with hv | hv
  · obtain ⟨i, hi, rfl⟩ := List.mem_map.1 hv
    have hi := List.mem_range.1 hi
    have := hle ((placeGlobals m.globalDefs).object.symbols.length + i)
    have := length_globalSymbols hfit
    omega
  · rw [(lays_placeGlobals hfit).globalSymbols] at hv
    obtain ⟨i, hi, rfl⟩ := List.mem_map.1 hv
    have hi := List.mem_range.1 hi
    have := hle i
    omega

theorem ready_withRuntime {m : LinkModule} (hfit : PlacesFit m.globalDefs) (hnamed : Named m)
    (h : Relocates m) : Ready (withRuntime m).1.all (withRuntime m).2 := by
  have hmemcpy := ready_runtimeSymbol (ready_declared hfit hnamed h)
    (by decide : 0 ∉ nameBytes "memcpy")
  have hmemset := ready_runtimeSymbol hmemcpy (by decide : 0 ∉ nameBytes "memset")
  have hfmod := ready_runtimeSymbol hmemset (by decide : 0 ∉ nameBytes "fmod")
  have h := ready_runtimeSymbol hfmod (by decide : 0 ∉ nameBytes "fmodf")
  refine h.mono fun v hv => ?_
  simp only [Symbols.all, withRuntime, List.mem_append, List.mem_cons, List.not_mem_nil,
    or_false, functionSymbols] at hv ⊢
  tauto

/-- The code of a function refers to the symbols it is emitted with. -/
def Emit.Refers (emit : Emit) : Prop :=
  ∀ s i e, emit s i = some e → ∀ r ∈ e.encoder.relocations, r.symbol ∈ Symbols.all s

theorem getD_lt {vs : List (BitVec 32)} {n : Nat} (h : ∀ v ∈ vs, v.toNat < n) (hn : 0 < n)
    (i : Nat) : (vs.getD i 0).toNat < n := by
  rw [List.getD_eq_getElem?_getD]
  cases hi : vs[i]? with
  | none => exact hn
  | some v => exact h v (List.mem_of_getElem? hi)

/-- The start function of a test run refers to symbols of the object. -/
theorem testStart_lt {m : LinkModule} {s : Symbols} {exit : BitVec 32} {n : Nat}
    (h : ∀ v ∈ s.all, v.toNat < n) (hexit : exit.toNat < n) (info runner : Nat) :
    ∀ v ∈ (testStart m s exit info runner).filterMap symbolOf, v.toNat < n := by
  have hfunctions : ∀ i, (s.functions.getD i 0).toNat < n :=
    getD_lt (fun v hv => h v (by simp [Symbols.all, hv])) (Nat.zero_lt_of_lt hexit)
  have hglobals : ∀ i, (s.globals.getD i 0).toNat < n :=
    getD_lt (fun v hv => h v (by simp [Symbols.all, hv])) (Nat.zero_lt_of_lt hexit)
  intro v hv
  rw [testStart, startFront, List.filterMap_append] at hv
  rcases List.mem_append.1 hv with hv | hv
  · rcases hinit : bodyNamed m "_init" with _ | i
    · simp [hinit, symbolOf] at hv
    · simp only [hinit, symbolOf, List.filterMap_cons, List.filterMap_nil, List.mem_singleton] at hv
      exact hv ▸ hfunctions i
  · simp only [symbolOf, List.filterMap_cons, List.filterMap_nil, List.mem_cons, List.not_mem_nil,
      or_false] at hv
    rcases hv with rfl | rfl | rfl
    · exact hglobals info
    · exact hfunctions runner
    · exact hexit

/-- And so does that of a program. -/
theorem mainStart_lt {m : LinkModule} {s : Symbols} {exit : BitVec 32} {n : Nat}
    (h : ∀ v ∈ s.all, v.toNat < n) (hexit : exit.toNat < n) (main : Nat) :
    ∀ v ∈ (mainStart m s exit main).filterMap symbolOf, v.toNat < n := by
  have hfunctions : ∀ i, (s.functions.getD i 0).toNat < n :=
    getD_lt (fun v hv => h v (by simp [Symbols.all, hv])) (Nat.zero_lt_of_lt hexit)
  intro v hv
  rw [mainStart, startFront, List.filterMap_append, List.filterMap_append] at hv
  rcases List.mem_append.1 hv with hv | hv
  · rcases List.mem_append.1 hv with hv | hv
    · rcases hinit : bodyNamed m "_init" with _ | i
      · simp [hinit, symbolOf] at hv
      · simp only [hinit, symbolOf, List.filterMap_cons, List.filterMap_nil,
          List.mem_singleton] at hv
        exact hv ▸ hfunctions i
    · have hsymbol : v = s.functions.getD main 0 := by
        split at hv
        · simpa [symbolOf, eq_comm] using hv
        · split at hv
          · simpa [symbolOf, eq_comm] using hv
          · simpa [symbolOf, eq_comm] using hv
      exact hsymbol ▸ hfunctions main
  · simp only [symbolOf, List.filterMap_cons, List.filterMap_nil, List.mem_singleton] at hv
    exact hv ▸ hexit

theorem wellFormed_generate {m : LinkModule} (hfit : PlacesFit m.globalDefs) (hnamed : Named m)
    (hrel : Relocates m) {emit : Emit} (hemit : emit.Refers) (testInfo testRunner : Option Nat) :
    (generate m emit testInfo testRunner).1.WellFormed := by
  have h := ready_withRuntime hfit hnamed hrel
  rcases hw : withRuntime m with ⟨symbols, o⟩
  rw [hw] at h
  have hb := @ready_addBodies _ _ (placeGlobals m.globalDefs).object.symbols.length
    (hemit symbols) m.functions.zipIdx (o, false) h
  rcases hbodies : addBodies (emit symbols) (placeGlobals m.globalDefs).object.symbols.length
    m.functions.zipIdx (o, false) with ⟨o', failed⟩
  rw [hbodies] at hb
  have hexit := ready_runtimeSymbol hb (by decide : 0 ∉ nameBytes "exit")
  have hsymbols : ∀ v ∈ symbols.all, v.toNat < (runtimeSymbol o' "exit").2.symbols.length :=
    fun v hv => hexit.symbols v (List.mem_append_left _ hv)
  have hlast : (runtimeSymbol o' "exit").1.toNat < (runtimeSymbol o' "exit").2.symbols.length :=
    hexit.symbols _ (by simp)
  simp only [generate, hw, hbodies]
  split
  · exact hb.wellFormed
  · split
    · exact ready_addStart hexit (fun _ _ => rfl) (testStart_lt hsymbols hlast _ _)
    · split
      · exact ready_addStart hexit (fun _ _ => rfl) (mainStart_lt hsymbols hlast _)
      · exact hb.wellFormed

/-! ## What the file says of the globals -/

/-- The globals of a module with their places. -/
def placedGlobals (m : LinkModule) : List (Global × Elf.Section × BitVec 64) :=
  m.globalDefs.zip (placeGlobals m.globalDefs).placed

/-- The relocations of the initializers in a section, each with the place of its global. -/
def initializers (m : LinkModule) (section_ : Elf.Section) :
    List ((Elf.Section × BitVec 64) × Mirage.Relocation) :=
  ((placedGlobals m).filter fun r => homeOf r.1 = section_).flatMap fun r =>
    r.1.relocations.map fun x => (r.2, x)

/-- A symbol is that of what a relocation names. -/
def Names (m : LinkModule) (r : Mirage.Relocation) (sym : Elf.Symbol) : Prop :=
  match r.kind with
  | .globalAddr => ∃ g place, m.globalDefs[r.target]? = some g ∧
      (placeGlobals m.globalDefs).placed[r.target]? = some place ∧ sym = globalSymbol g place
  | .functionAddr => ∃ fn, m.functions[r.target]? = some fn ∧ sym.name = nameBytes fn.name ∧
      sym.section_ = if fn.hasBody then .text else .undefined

/-- A relocation of the file is one of an initializer: it is where the global is and as far
    inside, and its symbol is that of the function or the global with the same addend. -/
structure Reaches (m : LinkModule) (file : Elf.File)
    (r : (Elf.Section × BitVec 64) × Mirage.Relocation) (rel : Elf.Relocation) : Prop where
  offset : rel.offset.toNat = r.1.2.toNat + r.2.offset
  type : rel.type = rX86_64_64
  addend : rel.addend = r.2.addend
  symbol : ∃ i sym, rel.symbol.toNat = i + 1 ∧ file.symbols[i]? = some sym ∧ Names m r.2 sym

/-- The file has the globals of a module. -/
structure HasGlobals (m : LinkModule) (file : Elf.File) : Prop where
  home : ∀ r ∈ placedGlobals m, r.2.1 = homeOf r.1
  placed : ∀ section_, Placed 0 (sectionEnd section_ m.globalDefs)
    (rows section_ m.globalDefs (placeGlobals m.globalDefs).placed)
  bss : file.bssSize.toNat = sectionEnd .bss m.globalDefs
  data : file.data.length = sectionEnd .data m.globalDefs
  rodata : file.rodata.length = sectionEnd .rodata m.globalDefs
  dataBytes : ∀ r ∈ placedGlobals m, homeOf r.1 = .data →
    slice file.data r.2.2.toNat r.1.init.length = some r.1.init
  rodataBytes : ∀ r ∈ placedGlobals m, homeOf r.1 = .rodata →
    slice file.rodata r.2.2.toNat r.1.init.length = some r.1.init
  relocations : ∀ section_ ∈ [Elf.Section.data, .rodata], List.Forall₂ (Reaches m file)
    (initializers m section_) (file.relocations.filter fun rel => rel.in_ = section_)

theorem relocationsIn_declared {m : LinkModule} (hfit : PlacesFit m.globalDefs)
    (section_ : Elf.Section) : (declared m).relocationsIn section_ =
      (initializers m section_).map fun r =>
        relocationOf (placeGlobals m.globalDefs) (functionSymbols m) r.1 r.2 := by
  have hhome := (lays_placeGlobals hfit).home
  rw [Elf.Object.relocationsIn, relocations_declared hfit, initializers, placedGlobals]
  generalize m.globalDefs.zip (placeGlobals m.globalDefs).placed = rs at hhome
  induction rs with
  | nil => rfl
  | cons r rs ih =>
    obtain ⟨hr, hrs⟩ := List.forall_mem_cons.1 hhome
    rw [List.flatMap_cons, List.filter_append, ih hrs, List.filter_map]
    by_cases h : homeOf r.1 = section_
    · have hall : ∀ x ∈ r.1.relocations, (decide ((relocationOf (placeGlobals m.globalDefs)
          (functionSymbols m) r.2 x).in_ = section_)) = true := fun x _ =>
        decide_eq_true (hr.trans h)
      rw [List.filter_cons, if_pos (decide_eq_true h), List.flatMap_cons, List.map_append,
        List.map_map]
      exact congrArg (fun xs => List.map _ xs ++ _) (List.filter_eq_self.2 hall)
    · have hnone : ∀ x ∈ r.1.relocations, ¬ (decide ((relocationOf (placeGlobals m.globalDefs)
          (functionSymbols m) r.2 x).in_ = section_)) = true := fun x _ hx =>
        h (hr.symm.trans (of_decide_eq_true hx))
      rw [List.filter_cons, if_neg (by simpa using h)]
      exact congrArg (fun xs => List.map _ xs ++ _) (List.filter_eq_nil_iff.2 hnone)

theorem mem_initializers {m : LinkModule} {section_ : Elf.Section}
    {x : (Elf.Section × BitVec 64) × Mirage.Relocation} (h : x ∈ initializers m section_) :
    ∃ g, (g, x.1) ∈ placedGlobals m ∧ homeOf g = section_ ∧ x.2 ∈ g.relocations := by
  obtain ⟨r, hr, hx⟩ := List.mem_flatMap.1 h
  obtain ⟨hmem, hhome⟩ := List.mem_filter.1 hr
  obtain ⟨y, hy, rfl⟩ := List.mem_map.1 hx
  exact ⟨r.1, hmem, of_decide_eq_true hhome, hy⟩

/-- A relocation of an initializer is inside its section. -/
theorem offset_relocationOf {m : LinkModule} (hfit : PlacesFit m.globalDefs) (h : Relocates m)
    {section_ : Elf.Section} (hsection : section_ ∈ [Elf.Section.data, .rodata])
    {x : (Elf.Section × BitVec 64) × Mirage.Relocation} (hx : x ∈ initializers m section_) :
    (x.1.2 + BitVec.ofNat 64 x.2.offset).toNat = x.1.2.toNat + x.2.offset := by
  obtain ⟨g, hmem, hhome, hr⟩ := mem_initializers hx
  have hg : g ∈ m.globalDefs := (List.of_mem_zip hmem).1
  have hne : g.init ≠ [] := fun hnil => by
    rw [h.initialized g hg hnil] at hr
    exact absurd hr List.not_mem_nil
  have hinside := h.relocatable.inside g hg hne x.2 hr
  have hrow : (roomOf g, x.1.2.toNat) ∈
      rows section_ m.globalDefs (placeGlobals m.globalDefs).placed :=
    List.mem_map.2 ⟨(g, x.1), List.mem_filter.2 ⟨hmem, decide_eq_true hhome⟩, rfl⟩
  have hend := ((lays_placeGlobals hfit).placed section_).inside _ hrow
  have hroom : (roomOf g).size = g.init.length := by simp [roomOf, hne]
  have hlt : sectionEnd section_ m.globalDefs < 2 ^ 64 := by
    simp only [List.mem_cons, List.not_mem_nil, or_false] at hsection
    rcases hsection with rfl | rfl
    · exact hfit.data
    · exact hfit.rodata
  rw [hroom] at hend
  simp only at hend
  rw [BitVec.toNat_add, BitVec.toNat_ofNat]
  omega

/-- The symbol of what a relocation names, in the object. -/
theorem names_symbolIndex {m : LinkModule} (hfit : PlacesFit m.globalDefs) (h : Relocates m)
    {o : Elf.Object} (ho : Grows (declared m) o) {g : Global} (hg : g ∈ m.globalDefs)
    {r : Mirage.Relocation} (hr : r ∈ g.relocations) :
    ∃ sym, o.symbols[symbolIndex m r]? = some sym ∧ Names m r sym.asWritten := by
  have hfunction := h.relocatable.function g hg r hr
  have htarget := h.relocatable.target g hg r hr
  rcases r with ⟨kind, offset, target, addend⟩
  cases kind with
  | globalAddr =>
    obtain ⟨g', place, hg', hplace, hsym⟩ := symbol_global hfit (htarget rfl)
    obtain ⟨sym, hsym', hsame⟩ := ho.symbols _ _ hsym
    refine ⟨sym, hsym', g', place, hg', hplace, ?_⟩
    rw [hsame.same rfl, Elf.Symbol.asWritten]
    simp [globalSymbol]
  | functionAddr =>
    have hlt := hfunction rfl
    obtain ⟨sym, hsym', hsame⟩ := ho.symbols _ _
      (symbol_function hfit (List.getElem?_eq_getElem hlt))
    exact ⟨sym, hsym', _, List.getElem?_eq_getElem hlt, hsame.name, hsame.section_⟩

/-- The code has no relocations outside `.text`. -/
theorem relocationsIn_grows {o o' : Elf.Object} (h : Grows o o') {section_ : Elf.Section}
    (hne : section_ ≠ .text) : o'.relocationsIn section_ = o.relocationsIn section_ := by
  obtain ⟨code, hcode, htext⟩ := h.relocations
  have hnone : code.filter (fun rel => rel.in_ = section_) = [] :=
    List.filter_eq_nil_iff.2 fun rel hmem hin =>
      hne ((of_decide_eq_true hin).symm.trans (htext rel hmem))
  rw [Elf.Object.relocationsIn, hcode, List.filter_append, hnone, List.append_nil]
  rfl

theorem reaches_of_refers {m : LinkModule} (hfit : PlacesFit m.globalDefs) (h : Relocates m)
    {o : Elf.Object} {file : Elf.File} (ho : Grows (declared m) o) (hfits : o.Fits)
    (hfile : Elf.Describes o file) {section_ : Elf.Section}
    (hsection : section_ ∈ [Elf.Section.data, .rodata])
    {x : (Elf.Section × BitVec 64) × Mirage.Relocation} (hx : x ∈ initializers m section_)
    {rel : Elf.Relocation} (hrefers : Elf.Refers o.localsFirst
      (relocationOf (placeGlobals m.globalDefs) (functionSymbols m) x.1 x.2) rel) :
    Reaches m file x rel := by
  obtain ⟨g, hmem, -, hr⟩ := mem_initializers hx
  have hg : g ∈ m.globalDefs := (List.of_mem_zip hmem).1
  obtain ⟨sym, hsym, hnames⟩ := names_symbolIndex hfit h ho hg hr
  obtain ⟨i, hi, hplace⟩ := hrefers.symbol
  have hindex : (BitVec.ofNat 32 (symbolIndex m x.2)).toNat = symbolIndex m x.2 := by
    have hlt := (List.getElem?_eq_some_iff.1 hsym).1
    have hsymbols := hfits.symbols
    rw [BitVec.toNat_ofNat]
    omega
  rw [symbol_relocationOf hfit h hg hr, hindex] at hplace
  refine ⟨?_, hrefers.type, hrefers.addend, i, sym.asWritten, hi, ?_, hnames⟩
  · rw [hrefers.offset]
    exact offset_relocationOf hfit h hsection hx
  · have hget := congrArg (fun xs => xs[i]?) hfile.symbols
    simp only [List.getElem?_map, hplace, Option.map_some, hsym] at hget
    obtain ⟨sym', hsym', heq⟩ := Option.map_eq_some_iff.1 hget
    rw [hsym', Option.some.inj heq]

/-- Every relocation of an initializer reaches the object file: whatever code is emitted, the
    file that is written is read back with the bytes of the globals at their places, apart and
    aligned, and for each relocation, in order, one that is in its global and has the symbol of
    what it names. -/
theorem globals_reach_file {m : LinkModule} (hfit : PlacesFit m.globalDefs) (hnamed : Named m)
    (hrel : Relocates m) {emit : Emit} (hemit : emit.Refers) (testInfo testRunner : Option Nat)
    (hfits : (generate m emit testInfo testRunner).1.Fits) :
    ∃ file, Elf.parse (Elf.write (generate m emit testInfo testRunner).1) = some file ∧
      HasGlobals m file := by
  have hgrows := grows_generate hfit emit testInfo testRunner
  have hwell := wellFormed_generate hfit hnamed hrel hemit testInfo testRunner
  set o := (generate m emit testInfo testRunner).1 with ho
  obtain ⟨file, hparse, hfile⟩ := Elf.write_reads_back hwell hfits
  have hlays := lays_placeGlobals hfit
  refine ⟨file, hparse, hlays.home, hlays.placed, ?_, ?_, ?_, fun r hr hhome => ?_,
    fun r hr hhome => ?_, fun section_ hsection => ?_⟩
  · rw [hfile.bssSize, hgrows.bssSize]
    exact hlays.bss
  · rw [hfile.data, hgrows.data]
    exact hlays.data
  · rw [hfile.rodata, hgrows.rodata]
    exact hlays.rodata
  · rw [hfile.data, hgrows.data]
    exact hlays.content r hr _ (hhome ▸ rfl)
  · rw [hfile.rodata, hgrows.rodata]
    exact hlays.content r hr _ (hhome ▸ rfl)
  · have hne : section_ ≠ .text ∧ section_ ∈ [Elf.Section.text, .data, .rodata] := by
      simp only [List.mem_cons, List.not_mem_nil, or_false] at hsection ⊢
      rcases hsection with rfl | rfl <;> decide
    have hread := hfile.relocations section_ hne.2
    rw [relocationsIn_grows hgrows hne.1, relocationsIn_declared hfit, List.forall₂_map_left_iff,
      List.forall₂_iff_zip] at hread
    refine List.forall₂_iff_zip.2 ⟨hread.1, fun hzip => ?_⟩
    exact reaches_of_refers hfit hrel hgrows hfits hfile hsection (List.of_mem_zip hzip).1
      (hread.2 hzip)

/-- A module with a counter and a table of a function and of the counter. -/
def tableModule : LinkModule where
  functions := [{ name := "main", hasBody := true }]
  globals := 2
  signatures := [{}]
  globalDefs := [
    { name := "count", size := 4, align := 4 },
    { name := "table", isExternal := true, size := 16, align := 8, isConstant := true
      init := List.replicate 16 0
      relocations := [⟨.functionAddr, 0, 0, 0⟩, ⟨.globalAddr, 8, 0, 2⟩] }]

/-- Code that calls a library function. -/
def emitCopy : Emit := fun s _ => some { encoder := ({} : Encoder).run [.callSym s.memcpy, .ret] }

theorem table_reaches_file : ∃ file,
    Elf.parse (Elf.write (generate tableModule emitCopy none none).1) = some file ∧
      HasGlobals tableModule file := by
  have hfit : PlacesFit tableModule.globalDefs :=
    ⟨by decide, by decide, by decide, by decide⟩
  have hnamed : Named tableModule := ⟨by decide, by decide⟩
  have hrel : Relocates tableModule :=
    ⟨⟨by decide, by decide, by decide, by decide⟩, by decide⟩
  have hemit : emitCopy.Refers := by
    intro s i e he r hr
    obtain rfl := Option.some.inj he
    obtain rfl : r = ⟨.call32, 1, s.memcpy, -4⟩ := List.mem_singleton.1 hr
    simp [Symbols.all]
  refine globals_reach_file hfit hnamed hrel hemit none none ⟨?_, by decide, ?_⟩
  · rw [Elf.Object.length_strtab]
    decide
  · have hroom := Elf.Object.length_write_le
      (wellFormed_generate hfit hnamed hrel hemit none none)
    have hle : Elf.room (generate tableModule emitCopy none none).1.parts < 2 ^ 32 := by
      rw [Elf.Object.room_parts]
      decide
    omega

end Mirage.X86.Generate
