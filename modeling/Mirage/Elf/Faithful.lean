import Mirage.Elf.ReadBack

/-!
# Object files are read back

What the writer makes of an object is read back by a reader that knows the format only: from
the section headers, with the names of the sections and of the symbols in their string tables
(`write_reads_back`). The file holds the contents of the sections byte by byte, the symbols in
the order they were given in except that the local ones are in front, and for each relocation,
in order, the place of the symbol it was given with; the sections are apart and at multiples of
their alignments (`Describes`). The one thing that is lost is whether an undefined symbol is a
function (`Symbol.asWritten`).

The numbers have to fit in their fields (`Object.Fits`): the names begin in the first 4 GiB of
their table, and the places of the symbols have 32 bits.

* `placedIn_placeAll`: every part is placed behind the one before it, at its alignment;
* `Object.readSections_write`: the section headers are found and have their names;
* `Object.symbols_write`, `Object.relocations_write`: the two tables are read back;
* `Object.remap_get`: the table of places is the inverse of the order;
* `Object.length_write_le`: what the file takes at most.
-/

namespace Mirage.Elf

open Reader (takeExactly times)

/-! ## Where the contents are -/

/-- The contents are in the file at their offsets, behind its first `n` bytes, in order and at
    multiples of their alignments. -/
structure PlacedIn (n : Nat) (file : List Byte) (placed : List (Part × BitVec 64)) : Prop where
  content : ∀ r ∈ placed, slice file r.2.toNat r.1.content.length = some r.1.content
  aligned : ∀ r ∈ placed, r.1.align.toNat ∣ r.2.toNat
  ordered : placed.Pairwise fun r s => r.2.toNat + r.1.content.length ≤ s.2.toNat
  behind : ∀ r ∈ placed, n ≤ r.2.toNat

theorem length_padTo {align : Nat} (h : 0 < align) (bytes : List Byte) :
    (padTo align bytes).length = roundUp bytes.length align := by
  have hle := le_roundUp (n := bytes.length) h
  rw [padTo, List.length_append, List.length_replicate]
  omega

theorem placeAll_fst (out : List Byte) (parts : List Part) :
    (placeAll out parts).1.map Prod.fst = parts := by
  induction parts generalizing out with
  | nil => rfl
  | cons part parts ih => exact congrArg _ (ih _)

/-- What is in a file already stays in front. -/
theorem exists_placeAll (out : List Byte) (parts : List Part) :
    ∃ after, (placeAll out parts).2 = out ++ after := by
  induction parts generalizing out with
  | nil => exact ⟨[], (List.append_nil _).symm⟩
  | cons part parts ih =>
    obtain ⟨after, h⟩ := ih (padTo part.align.toNat out ++ part.content)
    obtain ⟨zeros, hzeros⟩ : ∃ zeros, padTo part.align.toNat out = out ++ zeros := ⟨_, rfl⟩
    refine ⟨zeros ++ (part.content ++ after), ?_⟩
    show (placeAll (padTo part.align.toNat out ++ part.content) parts).2 = _
    rw [h, hzeros]
    simp only [List.append_assoc]

/-- The parts are placed one after the other. -/
theorem placedIn_placeAll {parts : List Part} (halign : ∀ part ∈ parts, 0 < part.align.toNat)
    (out : List Byte) (hlt : (placeAll out parts).2.length < 2 ^ 64) :
    PlacedIn out.length (placeAll out parts).2 (placeAll out parts).1 := by
  induction parts generalizing out with
  | nil => exact ⟨by simp [placeAll], by simp [placeAll], .nil, by simp [placeAll]⟩
  | cons part parts ih =>
    obtain ⟨hpos, halign⟩ := List.forall_mem_cons.1 halign
    set padded := padTo part.align.toNat out with hpadded
    have hfile : (placeAll out (part :: parts)).2 = (placeAll (padded ++ part.content) parts).2 :=
      rfl
    have hplaced : (placeAll out (part :: parts)).1 =
        (part, BitVec.ofNat 64 padded.length) ::
          (placeAll (padded ++ part.content) parts).1 := rfl
    have hlength : padded.length = roundUp out.length part.align.toNat := length_padTo hpos out
    obtain ⟨after, hafter⟩ := exists_placeAll (padded ++ part.content) parts
    rw [hfile] at hlt
    have hrest := ih halign (padded ++ part.content) hlt
    have hoffset : (BitVec.ofNat 64 padded.length).toNat = padded.length := by
      rw [BitVec.toNat_ofNat]
      refine Nat.mod_eq_of_lt (lt_of_le_of_lt ?_ hlt)
      rw [hafter, List.append_assoc, List.length_append]
      omega
    have hout : out.length ≤ padded.length := hlength ▸ le_roundUp hpos
    rw [hfile, hplaced]
    refine ⟨List.forall_mem_cons.2 ⟨?_, hrest.content⟩,
      List.forall_mem_cons.2 ⟨?_, hrest.aligned⟩, List.pairwise_cons.2 ⟨fun s hs => ?_,
        hrest.ordered⟩, List.forall_mem_cons.2 ⟨?_, fun s hs => ?_⟩⟩
    · show slice _ (BitVec.ofNat 64 padded.length).toNat part.content.length = some part.content
      rw [hoffset, hafter, slice_eq]
    · show part.align.toNat ∣ (BitVec.ofNat 64 padded.length).toNat
      rw [hoffset, hlength]
      exact dvd_roundUp out.length part.align.toNat
    · show (BitVec.ofNat 64 padded.length).toNat + part.content.length ≤ s.2.toNat
      have := hrest.behind s hs
      rwa [hoffset, ← List.length_append]
    · show out.length ≤ (BitVec.ofNat 64 padded.length).toNat
      rwa [hoffset]
    · have := hrest.behind s hs
      rw [List.length_append] at this
      omega

/-! ## The patch -/

/-- What is behind a patch stays. -/
theorem slice_patch {out bytes : List Byte} {at_ offset n : Nat}
    (hat : at_ + bytes.length ≤ offset) (hlt : at_ + bytes.length ≤ out.length) :
    slice (patch out at_ bytes) offset n = slice out offset n := by
  have hfront : (out.take at_ ++ bytes).length = at_ + bytes.length := by
    rw [List.length_append, List.length_take]
    omega
  have hlength : (patch out at_ bytes).length = out.length := by
    rw [patch, List.length_append, hfront, List.length_drop]
    omega
  have hdrop : (patch out at_ bytes).drop offset = out.drop offset := by
    rw [patch, List.drop_append, List.drop_eq_nil_of_le (by omega), List.nil_append, hfront,
      List.drop_drop]
    congr 1
    omega
  rw [slice, slice, hlength, hdrop]

namespace Object

variable (o : Object)

/-- The sections with their offsets. -/
def placed : List (Part × BitVec 64) := (placeAll ehdr o.parts).1

/-- The file up to the section headers. -/
def body : List Byte := padTo 8 (placeAll ehdr o.parts).2

def offset (i : Nat) : BitVec 64 := (o.placed.map Prod.snd).getD i 0

theorem placed_eq : o.placed =
    [(o.textPart, o.offset 0), (o.relaTextPart, o.offset 1), (o.dataPart, o.offset 2),
      (o.relaDataPart, o.offset 3), (o.rodataPart, o.offset 4), (o.relaRodataPart, o.offset 5),
      (o.bssPart, o.offset 6), (o.symtabPart, o.offset 7), (o.strtabPart, o.offset 8),
      (shstrtabPart, o.offset 9)] := rfl

end Object

def nullPart : Part := ⟨0, 0, 0, [], 0, 0, 0, 0, 0⟩

theorem nullHeader_eq : nullHeader = shdr nullPart 0 := by decide

namespace Object

variable (o : Object)

def sections : Sections :=
  [([], nullPart.header 0), (ascii ".text", o.textPart.header (o.offset 0)),
    (ascii ".rela.text", o.relaTextPart.header (o.offset 1)),
    (ascii ".data", o.dataPart.header (o.offset 2)),
    (ascii ".rela.data", o.relaDataPart.header (o.offset 3)),
    (ascii ".rodata", o.rodataPart.header (o.offset 4)),
    (ascii ".rela.rodata", o.relaRodataPart.header (o.offset 5)),
    (ascii ".bss", o.bssPart.header (o.offset 6)),
    (ascii ".symtab", o.symtabPart.header (o.offset 7)),
    (ascii ".strtab", o.strtabPart.header (o.offset 8)),
    (ascii ".shstrtab", shstrtabPart.header (o.offset 9))]

theorem named_text : o.sections.named ".text" = some (o.textPart.header (o.offset 0)) := rfl
theorem named_data : o.sections.named ".data" = some (o.dataPart.header (o.offset 2)) := rfl
theorem named_rodata : o.sections.named ".rodata" = some (o.rodataPart.header (o.offset 4)) := rfl
theorem named_bss : o.sections.named ".bss" = some (o.bssPart.header (o.offset 6)) := rfl

theorem kind_sectionIndex (section_ : Section) :
    o.sections.kind (sectionIndex section_).toNat = some section_ := by
  cases section_ <;> rfl

theorem find_symtab : (o.sections.map Prod.snd).find? (fun h => h.type = shtSymtab) =
    some (o.symtabPart.header (o.offset 7)) := rfl

theorem filter_rela : (o.sections.map Prod.snd).filter (fun h => h.type = shtRela) =
    [o.relaTextPart.header (o.offset 1), o.relaDataPart.header (o.offset 3),
      o.relaRodataPart.header (o.offset 5)] := rfl

/-- The section headers as bytes. -/
def table : List Byte := nullHeader ++ o.placed.flatMap fun r => shdr r.1 r.2

theorem length_ehdr : ehdr.length = 64 := by decide

theorem exists_body : ∃ after, o.body = ehdr ++ after := by
  obtain ⟨after, h⟩ := exists_placeAll ehdr o.parts
  rw [body, padTo, h, List.append_assoc]
  exact ⟨_, rfl⟩

/-- The file is what was placed and the section headers, with the place of these patched in. -/
theorem write_eq : write o =
    patch (o.body ++ o.table) shoffField (u64 (BitVec.ofNat 64 o.body.length)) := by
  rw [table, ← List.append_assoc]
  rfl

theorem length_u64 (v : BitVec 64) : (u64 v).length = 8 := length_word 8 v

theorem length_write : (write o).length = o.body.length + o.table.length := by
  obtain ⟨after, h⟩ := o.exists_body
  have hehdr := length_ehdr
  rw [write_eq, patch, h]
  simp only [List.length_append, List.length_take, List.length_drop, length_u64, shoffField, hehdr]
  omega

/-- Behind the file header nothing is patched. -/
theorem slice_write {offset n : Nat} (h : 64 ≤ offset) :
    slice (write o) offset n = slice (o.body ++ o.table) offset n := by
  obtain ⟨after, hbody⟩ := o.exists_body
  have hehdr := length_ehdr
  have hlength := length_u64 (BitVec.ofNat 64 o.body.length)
  rw [write_eq]
  refine slice_patch (by rw [hlength, shoffField]; omega) ?_
  rw [hlength, hbody, shoffField, List.length_append, List.length_append]
  omega

/-- The header of the file. -/
theorem readFileHeader_write : ∃ rest, readFileHeader (write o) =
    some (⟨BitVec.ofNat 64 o.body.length, 64, shCount, shShstrtab⟩, rest) := by
  obtain ⟨after, h⟩ := o.exists_body
  have hfront : write o =
      patch ehdr shoffField (u64 (BitVec.ofNat 64 o.body.length)) ++ (after ++ o.table) := by
    have hle : shoffField + 8 ≤ ehdr.length := by decide
    rw [write_eq, patch, patch, length_u64, h, List.append_assoc ehdr,
      List.take_append_of_le_length (by omega), List.drop_append_of_le_length hle]
    simp only [List.append_assoc]
  rw [hfront]
  exact ⟨_, reads_ehdr _ _⟩

section

variable {o}

theorem shoff_lt (hlt : (write o).length < 2 ^ 64) :
    (BitVec.ofNat 64 o.body.length).toNat = o.body.length := by
  rw [length_write] at hlt
  rw [BitVec.toNat_ofNat, Nat.mod_eq_of_lt (by omega)]

theorem length_table : o.table.length = 704 := by
  have h : (o.placed.flatMap fun r => shdr r.1 r.2).length = 64 * o.placed.length :=
    length_flatMap_const (fun r => by simp [shdr, u32, u64]) o.placed
  rw [table, List.length_append, h, nullHeader, List.length_replicate, placed_eq]
  simp only [List.length_cons, List.length_nil]

theorem slice_table (hlt : (write o).length < 2 ^ 64) :
    slice (write o) (BitVec.ofNat 64 o.body.length).toNat 704 = some o.table := by
  obtain ⟨after, h⟩ := o.exists_body
  have hehdr := length_ehdr
  have hslice := slice_eq o.body o.table []
  rw [List.append_nil, length_table] at hslice
  rw [shoff_lt hlt, slice_write, hslice]
  rw [h, List.length_append]
  omega

theorem parse_table : Reader.parse (times shCount.toNat readSectionHeader) o.table =
    some (o.sections.map Prod.snd) := by
  have h := Reads.times ((nullPart, 0) :: o.placed) fun r _ => reads_shdr r.1 r.2
  have hcount : shCount.toNat = ((nullPart, (0 : BitVec 64)) :: o.placed).length := rfl
  have hvalue : o.sections.map Prod.snd =
      ((nullPart, (0 : BitVec 64)) :: o.placed).map fun r => r.1.header r.2 := rfl
  have htable : o.table = shdr nullPart 0 ++ o.placed.flatMap fun r => shdr r.1 r.2 := by
    rw [table, nullHeader_eq]
  rw [hcount, hvalue, htable]
  exact h.parse_eq

theorem placedIn (halign : ∀ part ∈ o.parts, 0 < part.align.toNat)
    (hlt : (write o).length < 2 ^ 64) : PlacedIn 64 (write o) o.placed := by
  have hbody : (placeAll ehdr o.parts).2.length ≤ o.body.length := by
    rw [body, padTo, List.length_append]
    omega
  have hle := o.length_write
  have hplaced := placedIn_placeAll halign ehdr (by omega)
  rw [length_ehdr] at hplaced
  refine ⟨fun r hr => ?_, hplaced.aligned, hplaced.ordered, hplaced.behind⟩
  rw [slice_write o (hplaced.behind r hr), body, padTo, List.append_assoc]
  exact slice_append _ (hplaced.content r hr)

theorem fileSize_of_placed {r : Part × BitVec 64} (h : PlacedIn 64 (write o) o.placed)
    (hlt : (write o).length < 2 ^ 64) (hmem : r ∈ o.placed) (htype : r.1.type ≠ shtNobits)
    (hsize : r.1.size = BitVec.ofNat 64 r.1.content.length) :
    (r.1.header r.2).fileSize = r.1.content.length := by
  have hslice := h.content r hmem
  have hle : r.1.content.length < 2 ^ 64 := by
    rw [slice] at hslice
    split at hslice
    · omega
    · cases hslice
  rw [SectionHeader.fileSize, if_neg (by exact htype)]
  show r.1.size.toNat = r.1.content.length
  rw [hsize, BitVec.toNat_ofNat, Nat.mod_eq_of_lt hle]

/-- The content of a section whose bytes are in the file. -/
theorem content_header {part : Part} {offset : BitVec 64} (h : PlacedIn 64 (write o) o.placed)
    (hlt : (write o).length < 2 ^ 64) (hmem : (part, offset) ∈ o.placed)
    (htype : part.type ≠ shtNobits) (hsize : part.size = BitVec.ofNat 64 part.content.length) :
    (part.header offset).content (write o) = some part.content := by
  rw [SectionHeader.content, fileSize_of_placed h hlt hmem htype hsize]
  exact h.content _ hmem

/-- The names of the sections are in their string table. -/
theorem cstring_sectionName : ∀ i : Fin 10,
    cstring shstrtab (sectionName (BitVec.ofNat 16 (i + 1))) = sectionNames[i.val]? := by
  decide

theorem mapM_names {name : SectionHeader → Option (List Byte)} {sections : Sections}
    (h : ∀ s ∈ sections, name s.2 = some s.1) :
    (sections.map Prod.snd).mapM (fun h => (name h).map fun n => (n, h)) = some sections := by
  induction sections with
  | nil => rfl
  | cons s sections ih =>
    obtain ⟨hs, hrest⟩ := List.forall_mem_cons.1 h
    rw [List.map_cons, List.mapM_cons, hs, ih hrest]
    rfl

theorem names_sections : ∀ s ∈ o.sections, cstring shstrtab s.2.name = some s.1 := by
  simp only [sections, List.forall_mem_cons]
  exact ⟨by decide, cstring_sectionName 0, cstring_sectionName 1, cstring_sectionName 2,
    cstring_sectionName 3, cstring_sectionName 4, cstring_sectionName 5, cstring_sectionName 6,
    cstring_sectionName 7, cstring_sectionName 8, cstring_sectionName 9,
    fun s hs => absurd hs List.not_mem_nil⟩

theorem readSections_write (h : PlacedIn 64 (write o) o.placed)
    (hlt : (write o).length < 2 ^ 64) : readSections (write o) = some o.sections := by
  obtain ⟨rest, hheader⟩ := o.readFileHeader_write
  have hcontent : (shstrtabPart.header (o.offset 9)).content (write o) = some shstrtab :=
    content_header h hlt (by rw [placed_eq]; simp) (by decide) rfl
  have hslice : slice (write o) (BitVec.ofNat 64 o.body.length).toNat
      ((64 : BitVec 16).toNat * shCount.toNat) = some o.table := slice_table hlt
  have hstrings : (o.sections.map Prod.snd)[shShstrtab.toNat]? =
      some (shstrtabPart.header (o.offset 9)) := rfl
  simp only [readSections, hheader, hslice, parse_table, hstrings, hcontent,
    Option.bind_eq_bind, Option.bind_some]
  exact mapM_names names_sections

/-! ## The symbols and the relocations -/

theorem mem_symbols_of_ordered {sym : Symbol} (h : sym ∈ o.ordered) : sym ∈ o.symbols := by
  obtain ⟨i, -, hi⟩ := List.mem_filterMap.1 h
  exact List.mem_of_getElem? hi

theorem mapM_symbolOf {rs : List (Symbol × BitVec 32)}
    (h : ∀ r ∈ rs, cstring o.strtab r.2 = some r.1.name) :
    (rs.map fun r => r.1.entry r.2).mapM (o.sections.symbolOf o.strtab) =
      some (rs.map fun r => r.1.asWritten) := by
  induction rs with
  | nil => rfl
  | cons r rs ih =>
    obtain ⟨hr, hrest⟩ := List.forall_mem_cons.1 h
    rw [List.map_cons, List.mapM_cons, symbolOf_entry hr (o.kind_sectionIndex r.1.section_),
      ih hrest]
    rfl

theorem map_fst_offsets (strtab : StringTable) (syms : List Symbol) :
    (offsets strtab syms).map Prod.fst = syms := by
  induction syms generalizing strtab with
  | nil => rfl
  | cons sym syms ih => exact congrArg _ (ih _)

/-- The symbols are read back, in the order in which they were written. -/
theorem symbols_write (h : PlacedIn 64 (write o) o.placed) (hlt : (write o).length < 2 ^ 64)
    (hnames : ∀ sym ∈ o.symbols, 0 ∉ sym.name) (hfits : o.strtab.length ≤ 2 ^ 32) :
    o.sections.symbols (write o) (o.symtabPart.header (o.offset 7)) =
      some (o.ordered.map Symbol.asWritten) := by
  have hcontent : (o.symtabPart.header (o.offset 7)).content (write o) = some o.symtab :=
    content_header h hlt (by rw [placed_eq]; simp)
      (by exact (by decide : shtSymtab ≠ shtNobits)) rfl
  have hstrtab : (o.strtabPart.header (o.offset 8)).content (write o) = some o.strtab :=
    content_header h hlt (by rw [placed_eq]; simp)
      (by exact (by decide : shtStrtab ≠ shtNobits)) rfl
  have hentries := entries_eq (by decide : 0 < 24) (by rfl) hcontent (length_symtab o)
    (reads_symtab o)
  have hlink : o.sections[(o.symtabPart.header (o.offset 7)).link.toNat]? =
      some (ascii ".strtab", o.strtabPart.header (o.offset 8)) := rfl
  have hordered : ∀ sym ∈ o.ordered, 0 ∉ sym.name :=
    fun sym hsym => hnames sym (mem_symbols_of_ordered hsym)
  have hstrings := cstring_offsets hordered hfits
  have hsymbols := mapM_symbolOf (o := o) hstrings
  simp only [Sections.symbols, hentries, hlink, hstrtab, Option.bind_eq_bind, Option.bind_some,
    List.tail_cons]
  rw [hsymbols, ← congrArg (List.map Symbol.asWritten) (map_fst_offsets {} o.ordered), List.map_map]
  rfl

/-- The relocations in a section are read back, in order. -/
theorem relocations_write (h : PlacedIn 64 (write o) o.placed) (hlt : (write o).length < 2 ^ 64)
    {index : BitVec 16} {in_ : Section} {offset : BitVec 64}
    (hmem : (Part.ofRela index (sectionIndex in_) (o.buildRela in_), offset) ∈ o.placed) :
    o.sections.relocations (write o)
        ((Part.ofRela index (sectionIndex in_) (o.buildRela in_)).header offset) =
      some ((o.relocationsIn in_).map o.relocated) := by
  have hcontent := content_header h hlt hmem (by exact (by decide : shtRela ≠ shtNobits)) rfl
  have hentries := entries_eq (by decide : 0 < 24) (by rfl) hcontent (length_buildRela o in_)
    (reads_buildRela o in_)
  have hkind : o.sections.kind (Part.header (Part.ofRela index (sectionIndex in_)
      (o.buildRela in_)) offset).info.toNat = some in_ := by
    cases in_ <;> rfl
  simp only [Sections.relocations, hkind, hentries, Option.bind_eq_bind, Option.bind_some]

end

/-! ## The order of the symbols -/

/-- The indices of the symbols, the local ones first. -/
def localsFirst : List Nat :=
  (List.range o.symbols.length).filter (fun i => !o.isGlobal i) ++
    (List.range o.symbols.length).filter o.isGlobal

theorem order_eq : o.order = o.localsFirst := mergeSort_flag o.isGlobal _

theorem perm_order : o.order.Perm (List.range o.symbols.length) := List.mergeSort_perm _ _

theorem length_order : o.order.length = o.symbols.length := by
  rw [o.perm_order.length_eq, List.length_range]

/-- The symbols in the order in which they are written. -/
theorem map_ordered : o.ordered.map some = o.order.map fun i => o.symbols[i]? := by
  have hall : ∀ i ∈ o.order, ∃ sym, o.symbols[i]? = some sym := fun i hi => by
    have hlt := List.mem_range.1 (o.perm_order.mem_iff.1 hi)
    exact ⟨_, List.getElem?_eq_getElem hlt⟩
  rw [ordered]
  generalize o.order = order at hall
  induction order with
  | nil => rfl
  | cons i order ih =>
    obtain ⟨⟨sym, hsym⟩, hrest⟩ := List.forall_mem_cons.1 hall
    rw [List.filterMap_cons_some hsym, List.map_cons, List.map_cons, hsym, ih hrest]

/-- The place of a symbol in the table. -/
theorem remap_get {i j : Nat} (h : o.order[i]? = some j) :
    o.remap.getD j 0 = BitVec.ofNat 32 (i + 1) := by
  have hnodup : o.order.Nodup := o.perm_order.nodup_iff.2 List.nodup_range
  have hj : j < o.symbols.length :=
    List.mem_range.1 (o.perm_order.mem_iff.1 (List.mem_of_getElem? h))
  have hget : (places (fun i => BitVec.ofNat 32 (i + 1)) o.order 0
      (List.replicate o.symbols.length 0))[j]? = some (BitVec.ofNat 32 (0 + i + 1)) :=
    places_get hnodup h (by rwa [List.length_replicate])
  rw [List.getD_eq_getElem?_getD, show o.remap = places (fun i => BitVec.ofNat 32 (i + 1)) o.order 0
    (List.replicate o.symbols.length 0) from rfl, hget, Nat.zero_add]
  rfl

theorem exists_place {j : Nat} (h : j < o.symbols.length) : ∃ i : Nat, o.order[i]? = some j :=
  List.mem_iff_getElem?.1 (o.perm_order.mem_iff.2 (List.mem_range.2 h))

/-- The first global symbol is behind the null entry and the local ones. -/
theorem firstGlobal_eq (h : o.symbols.length + 1 < 2 ^ 32) :
    o.firstGlobal.toNat =
      1 + ((List.range o.symbols.length).filter fun i => !o.isGlobal i).length := by
  set locals := (List.range o.symbols.length).filter fun i => !o.isGlobal i with hlocals
  set globals := (List.range o.symbols.length).filter o.isGlobal with hglobals
  have horder : o.order = locals ++ globals := o.order_eq
  have hlength : o.order.length = locals.length + globals.length := by
    rw [horder, List.length_append]
  have hcount := o.length_order
  have hnone : locals.findIdx? o.isGlobal = none := by
    refine List.findIdx?_eq_none_iff.2 fun i hi => ?_
    simpa using (List.mem_filter.1 hi).2
  have hfind : o.order.findIdx? o.isGlobal =
      (globals.findIdx? o.isGlobal).map fun i => i + locals.length := by
    rw [horder, List.findIdx?_append, hnone]
    simp
  rcases hcases : globals with _ | ⟨i, rest⟩
  · rw [hcases] at hfind hlength
    rw [firstGlobal, hfind]
    simp only [List.findIdx?_nil, Option.map_none, List.length_nil] at hlength ⊢
    rw [hlength, BitVec.toNat_add, BitVec.toNat_ofNat, show (1 : BitVec 32).toNat = 1 from rfl]
    omega
  · have hi : o.isGlobal i = true := by
      have hmem : i ∈ globals := hcases ▸ List.mem_cons_self
      exact (List.mem_filter.1 hmem).2
    rw [hcases, List.findIdx?_cons, if_pos hi] at hfind
    rw [hcases, List.length_cons] at hlength
    rw [firstGlobal, hfind]
    simp only [Option.map_some, Nat.zero_add, BitVec.toNat_ofNat]
    omega

end Object

/-! ## What a file says -/

/-- The alignments are not zero, the names have no zeros, and the relocations name symbols. -/
structure Object.WellFormed (o : Object) : Prop where
  textAlign : 0 < o.textAlign.toNat
  dataAlign : 0 < o.dataAlign.toNat
  rodataAlign : 0 < o.rodataAlign.toNat
  bssAlign : 0 < o.bssAlign.toNat
  names : ∀ sym ∈ o.symbols, 0 ∉ sym.name
  relocations : ∀ rel ∈ o.relocations, rel.symbol.toNat < o.symbols.length

/-- The offsets of the names and the places of the symbols fit in 32 bits, and the file in 64. -/
structure Object.Fits (o : Object) : Prop where
  strtab : o.strtab.length ≤ 2 ^ 32
  symbols : o.symbols.length + 1 < 2 ^ 32
  file : (write o).length < 2 ^ 64

/-- What a relocation of a file says is what a relocation of the object says; its symbol is the
    place behind the null entry, in an order of the symbols. -/
structure Refers (order : List Nat) (rel read : Relocation) : Prop where
  in_ : read.in_ = rel.in_
  offset : read.offset = rel.offset
  type : read.type = rel.type
  addend : read.addend = rel.addend
  symbol : ∃ i, read.symbol.toNat = i + 1 ∧ order[i]? = some rel.symbol.toNat

/-- A file says what an object does: the contents of the sections, the symbols with the local
    ones first, each relocation with its symbol, and sections that are apart and aligned. -/
structure Describes (o : Object) (file : File) : Prop where
  text : file.text = o.text
  data : file.data = o.data
  rodata : file.rodata = o.rodata
  bssSize : file.bssSize = o.bssSize
  symbols : file.symbols.map some =
    o.localsFirst.map fun i => o.symbols[i]?.map Symbol.asWritten
  firstGlobal : file.firstGlobal.toNat =
    1 + ((List.range o.symbols.length).filter fun i => !o.isGlobal i).length
  relocations : ∀ in_ ∈ [Section.text, .data, .rodata], List.Forall₂ (Refers o.localsFirst)
    (o.relocationsIn in_) (file.relocations.filter fun rel => rel.in_ = in_)
  ordered : file.headers.Pairwise fun h h' => h.offset.toNat + h.fileSize ≤ h'.offset.toNat
  aligned : ∀ h ∈ file.headers, h.align.toNat ∣ h.offset.toNat

namespace Object

variable (o : Object)

/-- What is read of the file of an object. -/
def readBack : File where
  headers := o.sections.map Prod.snd
  text := o.text
  data := o.data
  rodata := o.rodata
  bssSize := o.bssSize
  symbols := o.ordered.map Symbol.asWritten
  firstGlobal := o.firstGlobal
  relocations := [(o.relocationsIn .text).map o.relocated, (o.relocationsIn .data).map o.relocated,
    (o.relocationsIn .rodata).map o.relocated].flatten

variable {o}

theorem WellFormed.align_pos (h : o.WellFormed) : ∀ part ∈ o.parts, 0 < part.align.toNat := by
  simp only [parts, List.forall_mem_cons]
  exact ⟨h.textAlign, (by decide : 0 < (8 : BitVec 64).toNat), h.dataAlign,
    (by decide : 0 < (8 : BitVec 64).toNat), h.rodataAlign,
    (by decide : 0 < (8 : BitVec 64).toNat), h.bssAlign, (by decide : 0 < (8 : BitVec 64).toNat),
    (by decide : 0 < (1 : BitVec 64).toNat), (by decide : 0 < (1 : BitVec 64).toNat),
    fun _ h => absurd h List.not_mem_nil⟩

theorem parse_write (h : o.WellFormed) (hfits : o.Fits) : parse (write o) = some o.readBack := by
  have hplaced := placedIn h.align_pos hfits.file
  have htext : (o.textPart.header (o.offset 0)).content (write o) = some o.text :=
    content_header hplaced hfits.file (by rw [placed_eq]; simp)
      (by exact (by decide : shtProgbits ≠ shtNobits)) rfl
  have hdata : (o.dataPart.header (o.offset 2)).content (write o) = some o.data :=
    content_header hplaced hfits.file (by rw [placed_eq]; simp)
      (by exact (by decide : shtProgbits ≠ shtNobits)) rfl
  have hrodata : (o.rodataPart.header (o.offset 4)).content (write o) = some o.rodata :=
    content_header hplaced hfits.file (by rw [placed_eq]; simp)
      (by exact (by decide : shtProgbits ≠ shtNobits)) rfl
  have hsymbols := symbols_write hplaced hfits.file h.names hfits.strtab
  have hrelaText : o.sections.relocations (write o) (o.relaTextPart.header (o.offset 1)) = _ :=
    relocations_write hplaced hfits.file (by rw [placed_eq]; exact .tail _ (.head _))
  have hrelaData : o.sections.relocations (write o) (o.relaDataPart.header (o.offset 3)) = _ :=
    relocations_write hplaced hfits.file
      (by rw [placed_eq]; exact .tail _ (.tail _ (.tail _ (.head _))))
  have hrelaRodata : o.sections.relocations (write o) (o.relaRodataPart.header (o.offset 5)) = _ :=
    relocations_write hplaced hfits.file
      (by rw [placed_eq]; exact .tail _ (.tail _ (.tail _ (.tail _ (.tail _ (.head _))))))
  simp only [parse, readSections_write hplaced hfits.file, named_text, named_data, named_rodata,
    named_bss, find_symtab, filter_rela, htext, hdata, hrodata, hsymbols, List.mapM_cons,
    List.mapM_nil, hrelaText, hrelaData, hrelaRodata, Option.bind_eq_bind, Option.bind_some]
  rfl

/-- A relocation names the place of its symbol. -/
theorem refers_relocated (h : o.WellFormed) (hfits : o.Fits) {rel : Relocation}
    (hrel : rel ∈ o.relocations) : Refers o.localsFirst rel (o.relocated rel) := by
  obtain ⟨i, hi⟩ := o.exists_place (h.relocations rel hrel)
  have hlt : i < o.symbols.length := by
    rw [← o.length_order]
    exact (List.getElem?_eq_some_iff.1 hi).1
  have hsymbols := hfits.symbols
  refine ⟨rfl, rfl, rfl, rfl, i, ?_, o.order_eq ▸ hi⟩
  show (o.remap.getD rel.symbol.toNat 0).toNat = i + 1
  rw [o.remap_get hi, BitVec.toNat_ofNat]
  omega

/-- The relocations in a section, of all that are read. -/
theorem filter_relocated (in_ in_' : Section) :
    ((o.relocationsIn in_').map o.relocated).filter (fun rel => rel.in_ = in_) =
      if in_' = in_ then (o.relocationsIn in_).map o.relocated else [] := by
  have hin : ∀ rel ∈ (o.relocationsIn in_').map o.relocated, rel.in_ = in_' := by
    intro rel hrel
    obtain ⟨rel, hmem, rfl⟩ := List.mem_map.1 hrel
    exact of_decide_eq_true (List.mem_filter.1 hmem).2
  split
  · rename_i heq
    subst heq
    exact List.filter_eq_self.2 fun rel hrel => decide_eq_true (hin rel hrel)
  · rename_i hne
    exact List.filter_eq_nil_iff.2 fun rel hrel h =>
      hne ((hin rel hrel).symm.trans (by simpa using h))

/-- Every section header describes a part, or is the null header. -/
theorem mem_headers {h : SectionHeader} (hmem : h ∈ o.sections.map Prod.snd) :
    h = nullPart.header 0 ∨ ∃ r ∈ o.placed, h = r.1.header r.2 := by
  have heq : o.sections.map Prod.snd =
      nullPart.header 0 :: o.placed.map fun r => r.1.header r.2 := rfl
  rw [heq] at hmem
  rcases List.mem_cons.1 hmem with rfl | hmem
  · exact .inl rfl
  · obtain ⟨r, hr, rfl⟩ := List.mem_map.1 hmem
    exact .inr ⟨r, hr, rfl⟩

/-- The bytes of a section are in the file, or it has none. -/
theorem sized_parts : ∀ part ∈ o.parts, (part.type = shtNobits ∧ part.content = []) ∨
    (part.type ≠ shtNobits ∧ part.size = BitVec.ofNat 64 part.content.length) := by
  have hbytes : ∀ {index type flags content link info align entsize}, type ≠ shtNobits →
      ((Part.ofBytes index type flags content link info align entsize).type ≠ shtNobits ∧
        (Part.ofBytes index type flags content link info align entsize).size =
          BitVec.ofNat 64 content.length) := fun h => ⟨h, rfl⟩
  simp only [parts, List.forall_mem_cons]
  exact ⟨.inr (hbytes (by decide)), .inr (hbytes (by decide)), .inr (hbytes (by decide)),
    .inr (hbytes (by decide)), .inr (hbytes (by decide)), .inr (hbytes (by decide)),
    .inl ⟨rfl, rfl⟩, .inr (hbytes (by decide)), .inr (hbytes (by decide)),
    .inr (hbytes (by decide)), fun _ h => absurd h List.not_mem_nil⟩

/-- A section takes of the file the bytes that were placed. -/
theorem fileSize_header (hplaced : PlacedIn 64 (write o) o.placed)
    (hlt : (write o).length < 2 ^ 64) {r : Part × BitVec 64} (hr : r ∈ o.placed) :
    (r.1.header r.2).fileSize = r.1.content.length := by
  have hpart : r.1 ∈ o.parts := by
    rw [← placeAll_fst ehdr o.parts]
    exact List.mem_map_of_mem hr
  rcases sized_parts r.1 hpart with ⟨htype, hcontent⟩ | ⟨htype, hsize⟩
  · rw [SectionHeader.fileSize, if_pos (by exact htype), hcontent]
    rfl
  · exact fileSize_of_placed hplaced hlt hr htype hsize

/-- The file of an object says what the object does. -/
theorem describes_readBack (h : o.WellFormed) (hfits : o.Fits) : Describes o o.readBack := by
  have hplaced := placedIn h.align_pos hfits.file
  refine ⟨rfl, rfl, rfl, rfl, ?_, o.firstGlobal_eq hfits.symbols, fun in_ hin => ?_, ?_, ?_⟩
  · show (o.ordered.map Symbol.asWritten).map some = _
    rw [← o.order_eq, List.map_map]
    have := congrArg (List.map (Option.map Symbol.asWritten)) o.map_ordered
    simpa [Function.comp_def] using this
  · have hread : o.readBack.relocations.filter (fun rel => rel.in_ = in_) =
        (o.relocationsIn in_).map o.relocated := by
      simp only [readBack, List.flatten_cons, List.flatten_nil, List.append_nil, List.filter_append,
        filter_relocated]
      simp only [List.mem_cons, List.not_mem_nil, or_false] at hin
      rcases hin with rfl | rfl | rfl <;> simp
    rw [hread, List.forall₂_map_right_iff]
    refine List.forall₂_same.2 fun rel hrel => ?_
    exact refers_relocated h hfits (List.mem_filter.1 hrel).1
  · have heq : o.readBack.headers =
        nullPart.header 0 :: o.placed.map fun r => r.1.header r.2 := rfl
    rw [heq, List.pairwise_cons, List.pairwise_map]
    refine ⟨fun h _ => Nat.zero_le _, hplaced.ordered.imp_of_mem fun {r s} hr _ hle => ?_⟩
    rw [fileSize_header hplaced hfits.file hr]
    exact hle
  · intro hdr hmem
    rcases mem_headers hmem with rfl | ⟨r, hr, rfl⟩
    · exact dvd_rfl
    · exact hplaced.aligned r hr

end Object

/-! ## The size of the file -/

theorem length_padTo_le {align : Nat} (h : 0 < align) (bytes : List Byte) :
    (padTo align bytes).length ≤ bytes.length + align := by
  rw [length_padTo h, roundUp]
  have := Nat.div_mul_le_self (bytes.length + align - 1) align
  omega

/-- Room enough for parts and what is put between them. -/
def room : List Part → Nat
  | [] => 0
  | part :: parts => part.align.toNat + part.content.length + room parts

theorem length_placeAll_le {parts : List Part} (halign : ∀ part ∈ parts, 0 < part.align.toNat)
    (out : List Byte) : (placeAll out parts).2.length ≤ out.length + room parts := by
  induction parts generalizing out with
  | nil => exact le_rfl
  | cons part parts ih =>
    obtain ⟨hpos, halign⟩ := List.forall_mem_cons.1 halign
    have hpad := length_padTo_le hpos out
    have hrest := ih halign (padTo part.align.toNat out ++ part.content)
    rw [List.length_append] at hrest
    show (placeAll (padTo part.align.toNat out ++ part.content) parts).2.length ≤
      out.length + (part.align.toNat + part.content.length + room parts)
    omega

/-- The room the names of symbols take in a string table. -/
def nameRoom : List Symbol → Nat
  | [] => 0
  | sym :: syms => sym.name.length + 1 + nameRoom syms

theorem length_writeSymbols (strtab : StringTable) (syms : List Symbol) :
    (writeSymbols strtab syms).2.bytes.length = strtab.bytes.length + nameRoom syms := by
  induction syms generalizing strtab with
  | nil => rfl
  | cons sym syms ih =>
    show (writeSymbols (strtab.add sym.name).2 syms).2.bytes.length = _
    rw [ih, StringTable.add, nameRoom]
    simp only [List.length_append, List.length_singleton]
    omega

theorem nameRoom_perm {syms syms' : List Symbol} (h : syms.Perm syms') :
    nameRoom syms = nameRoom syms' := by
  induction h with
  | nil => rfl
  | cons sym _ ih => rw [nameRoom, nameRoom, ih]
  | swap sym sym' syms =>
    simp only [nameRoom]
    omega
  | trans _ _ ih ih' => exact ih.trans ih'

namespace Object

variable {o : Object}

theorem perm_ordered : o.ordered.Perm o.symbols := by
  have hall : (List.range o.symbols.length).map (fun i => o.symbols[i]?) = o.symbols.map some := by
    refine List.ext_getElem (by simp) fun i hi hi' => ?_
    rw [List.getElem_map, List.getElem_range, List.getElem_map]
    exact List.getElem?_eq_getElem (by simpa using hi)
  have h := (o.perm_order.map fun i => o.symbols[i]?).filterMap id
  rw [hall, ← o.map_ordered, List.filterMap_map, List.filterMap_map] at h
  simpa [Function.comp_def] using h

theorem length_strtab : o.strtab.length = 1 + nameRoom o.symbols := by
  rw [strtab, length_writeSymbols, nameRoom_perm perm_ordered]
  rfl

/-- What the file of an object takes at most. -/
theorem length_write_le (h : o.WellFormed) : (write o).length ≤ 776 + room o.parts := by
  have hplace := length_placeAll_le h.align_pos ehdr
  have hpad := length_padTo_le (by decide : 0 < 8) (placeAll ehdr o.parts).2
  rw [length_ehdr] at hplace
  rw [length_write, length_table, body]
  omega

theorem room_parts : room o.parts = o.textAlign.toNat + o.text.length + o.dataAlign.toNat +
    o.data.length + o.rodataAlign.toNat + o.rodata.length + o.bssAlign.toNat +
    24 * ((o.relocationsIn .text).length + (o.relocationsIn .data).length +
      (o.relocationsIn .rodata).length + o.symbols.length) + nameRoom o.symbols + 146 := by
  have hsymtab : o.symtab.length = 24 * (o.symbols.length + 1) := by
    rw [length_symtab, length_offsets, perm_ordered.length_eq]
  have hshstrtab : shstrtab.length = 87 := by decide
  simp only [room, parts, textPart, relaTextPart, dataPart, relaDataPart, rodataPart,
    relaRodataPart, bssPart, symtabPart, strtabPart, shstrtabPart, Part.ofRela, Part.ofBytes,
    length_buildRela, hsymtab, length_strtab, hshstrtab, List.length_nil, BitVec.reduceToNat]
  omega

end Object

/-! ## Reading what was written -/

/-- Reading what was written: the file of an object is read as what the object says. Of an
    undefined symbol the file does not say whether it is a function. -/
theorem write_reads_back {o : Object} (h : o.WellFormed) (hfits : o.Fits) :
    ∃ file, parse (write o) = some file ∧ Describes o file :=
  ⟨o.readBack, Object.parse_write h hfits, Object.describes_readBack h hfits⟩

/-- A program that calls a function of another object. -/
def hello : Object where
  text := [0xE8, 0, 0, 0, 0]
  bssSize := 4
  symbols := [⟨ascii "main", .text, 0, 5, true, true⟩, ⟨ascii "n", .bss, 0, 4, false, false⟩,
    ⟨ascii "exit", .undefined, 0, 0, true, true⟩]
  relocations := [⟨.text, 1, 2, 4, -4⟩]

theorem hello_wellFormed : hello.WellFormed :=
  ⟨by decide, by decide, by decide, by decide, by decide, by decide⟩

theorem hello_reads_back : ∃ file, parse (write hello) = some file ∧ Describes hello file := by
  refine write_reads_back hello_wellFormed ⟨?_, by decide, ?_⟩
  · rw [Object.length_strtab]
    decide
  · have hroom := Object.length_write_le hello_wellFormed
    have hle : room hello.parts < 2 ^ 32 := by
      rw [Object.room_parts]
      decide
    omega

end Mirage.Elf
