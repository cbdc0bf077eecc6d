import Mirage.Elf.Parse
import Mirage.Lib.Reorder

/-!
# The parts of an object file are read back

What the writer puts down for a header, a symbol or a relocation, the reader gets back from it,
whatever is behind.

* `reads_ehdr`, `reads_shdr`: the header of the file, and of a section;
* `reads_symtab`, `symbolOf_entry`: the symbols, with their names in the string table;
* `reads_buildRela`: the relocations.
-/

namespace Mirage.Elf

open Reader (takeExactly times)

theorem reads_u16 (v : BitVec 16) : Reads readU16 (u16 v) v := by
  rw [readU16, u16]
  exact reads_word (by decide) v

theorem reads_u32 (v : BitVec 32) : Reads readU32 (u32 v) v := by
  rw [readU32, u32]
  exact reads_word (by decide) v

theorem reads_u64 (v : BitVec 64) : Reads readU64 (u64 v) v := by
  rw [readU64, u64]
  exact reads_word (by decide) v

theorem reads_u8 (v : BitVec 8) : Reads (readWord 1 8) (u8 v) v := by
  have h := reads_word (n := 1) (by decide) v
  rwa [show word 1 v = u8 v by simp [word, u8]] at h

/-- The length of entries of one size. -/
theorem length_flatMap_const {α : Type} {f : α → List Byte} {size : Nat}
    (h : ∀ x, (f x).length = size) (xs : List α) : (xs.flatMap f).length = size * xs.length := by
  induction xs with
  | nil => rfl
  | cons x xs ih =>
    rw [List.flatMap_cons, List.length_append, h, ih, List.length_cons, Nat.mul_succ, Nat.add_comm]

/-! ## Headers -/

/-- What is read of the header of a section. -/
def Part.header (part : Part) (offset : BitVec 64) : SectionHeader where
  name := part.name
  type := part.type
  flags := part.flags
  offset := offset
  size := part.size
  link := part.link
  info := part.info
  align := part.align
  entsize := part.entsize

theorem reads_shdr (part : Part) (offset : BitVec 64) :
    Reads readSectionHeader (shdr part offset) (part.header offset) := by
  refine Reads.of_eq ((reads_u32 part.name).bind <| (reads_u32 part.type).bind <|
    (reads_u64 part.flags).bind <| (reads_u64 0).bind <| (reads_u64 offset).bind <|
    (reads_u64 part.size).bind <| (reads_u32 part.link).bind <| (reads_u32 part.info).bind <|
    (reads_u64 part.align).bind <| (reads_u64 part.entsize).bind_pure) ?_
  simp only [shdr, List.append_assoc]

/-- The bytes that identify the format. -/
def ident : List Byte := [0x7f, 0x45, 0x4c, 0x46, 2, 1, 1, 0] ++ List.replicate 8 0

theorem take_ehdr :
    ehdr.take shoffField = ident ++ u16 1 ++ u16 0x3E ++ u32 1 ++ u64 0 ++ u64 0 := by
  decide

theorem drop_ehdr : ehdr.drop (shoffField + 8) =
    u32 0 ++ u16 64 ++ u16 0 ++ u16 0 ++ u16 64 ++ u16 shCount ++ u16 shShstrtab := by
  decide

/-- The file header is read back, once the place of the section headers is in it. -/
theorem reads_ehdr (shoff : BitVec 64) :
    Reads readFileHeader (patch ehdr shoffField (u64 shoff)) ⟨shoff, 64, shCount, shShstrtab⟩ := by
  have hident : Reads (takeExactly 16) ident ident := Reads.takeExactly ident
  have hlength : (u64 shoff).length = 8 := length_word 8 shoff
  have hcheck : Reads (if ident.take 7 = [0x7f, 0x45, 0x4c, 0x46, 2, 1, 1] ∧ (1 : BitVec 16) = 1
      then pure ⟨shoff, 64, shCount, shShstrtab⟩ else failure : Reader Byte FileHeader) []
      ⟨shoff, 64, shCount, shShstrtab⟩ := by
    rw [if_pos (by decide)]
    exact Reads.pure _
  refine Reads.of_eq (hident.bind <| (reads_u16 1).bind <| (reads_u16 0x3E).bind <|
    (reads_u32 1).bind <| (reads_u64 0).bind <| (reads_u64 0).bind <| (reads_u64 shoff).bind <|
    (reads_u32 0).bind <| (reads_u16 64).bind <| (reads_u16 0).bind <| (reads_u16 0).bind <|
    (reads_u16 64).bind <| (reads_u16 shCount).bind <| (reads_u16 shShstrtab).bind hcheck) ?_
  rw [patch, hlength, take_ehdr, drop_ehdr]
  simp only [List.append_assoc, List.append_nil]

/-! ## Symbols -/

/-- The byte that says what a symbol is. -/
def symbolInfo (isGlobal isFunction : Bool) (section_ : Section) : BitVec 8 :=
  (if isGlobal then (1 : BitVec 8) else 0) <<< 4 |||
    if section_ = .undefined then 0 else if isFunction then 2 else 1

theorem globalOf_symbolInfo (isGlobal isFunction : Bool) (section_ : Section) :
    Sections.globalOf (symbolInfo isGlobal isFunction section_) = some isGlobal := by
  cases isGlobal <;> cases isFunction <;> cases section_ <;> decide

/-- An undefined symbol has no type. -/
theorem functionOf_symbolInfo (isGlobal isFunction : Bool) (section_ : Section) :
    Sections.functionOf (symbolInfo isGlobal isFunction section_) =
      some (section_ ≠ .undefined && isFunction) := by
  cases isGlobal <;> cases isFunction <;> cases section_ <;> decide

/-- What is read of the entry of a symbol. -/
def Symbol.entry (sym : Symbol) (name : BitVec 32) : SymbolEntry where
  name := name
  info := symbolInfo sym.isGlobal sym.isFunction sym.section_
  other := 0
  shndx := sectionIndex sym.section_
  value := sym.value
  size := sym.size

theorem reads_writeSymbol (sym : Symbol) (name : BitVec 32) :
    Reads readSymbolEntry (writeSymbol sym name) (sym.entry name) := by
  refine Reads.of_eq ((reads_u32 name).bind <| (reads_u8 (sym.entry name).info).bind <|
    (reads_u8 0).bind <| (reads_u16 (sectionIndex sym.section_)).bind <|
    (reads_u64 sym.value).bind <| (reads_u64 sym.size).bind_pure) ?_
  simp only [writeSymbol, List.append_assoc, Symbol.entry, symbolInfo]

/-- The null entry. -/
def nullEntry : SymbolEntry := ⟨0, 0, 0, 0, 0, 0⟩

theorem reads_nullEntry : Reads readSymbolEntry (List.replicate 24 0) nullEntry := by
  refine Reads.of_eq ((reads_u32 0).bind <| (reads_u8 0).bind <| (reads_u8 0).bind <|
    (reads_u16 0).bind <| (reads_u64 0).bind <| (reads_u64 0).bind_pure) ?_
  decide

/-- The symbols with the offsets of their names. -/
def offsets : StringTable → List Symbol → List (Symbol × BitVec 32)
  | _, [] => []
  | strtab, sym :: syms =>
    (sym, (strtab.add sym.name).1) :: offsets (strtab.add sym.name).2 syms

theorem writeSymbols_fst (strtab : StringTable) (syms : List Symbol) :
    (writeSymbols strtab syms).1 = (offsets strtab syms).flatMap fun r => writeSymbol r.1 r.2 := by
  induction syms generalizing strtab with
  | nil => rfl
  | cons sym syms ih =>
    rw [offsets, List.flatMap_cons, ← ih]
    rfl

theorem length_offsets (strtab : StringTable) (syms : List Symbol) :
    (offsets strtab syms).length = syms.length := by
  induction syms generalizing strtab with
  | nil => rfl
  | cons sym syms ih => exact congrArg Nat.succ (ih _)

@[simp] theorem length_writeSymbol (sym : Symbol) (name : BitVec 32) :
    (writeSymbol sym name).length = 24 := by
  simp [writeSymbol, u8, u16, u32, u64]

/-- The symbol table is read back as its entries. -/
theorem reads_symtab (o : Object) :
    Reads (times ((offsets {} o.ordered).length + 1) readSymbolEntry) o.symtab
      (nullEntry :: (offsets {} o.ordered).map fun r => r.1.entry r.2) := by
  have htimes := Reads.times (offsets {} o.ordered) fun r _ => reads_writeSymbol r.1 r.2
  rw [Object.symtab, writeSymbols_fst]
  exact reads_nullEntry.bind htimes.bind_pure

theorem length_symtab (o : Object) :
    o.symtab.length = 24 * ((offsets {} o.ordered).length + 1) := by
  rw [Object.symtab, writeSymbols_fst, List.length_append, List.length_replicate,
    length_flatMap_const fun r : Symbol × BitVec 32 => length_writeSymbol r.1 r.2]
  omega

/-! ## Names -/

/-- The string behind a part of a table. -/
theorem cstring_append {before name after : List Byte} (hname : 0 ∉ name)
    (hbefore : before.length < 2 ^ 32) :
    cstring (before ++ name ++ 0 :: after) (BitVec.ofNat 32 before.length) = some name := by
  have hrest : (before ++ name ++ 0 :: after).drop (BitVec.ofNat 32 before.length).toNat =
      name ++ 0 :: after := by
    rw [BitVec.toNat_ofNat, Nat.mod_eq_of_lt hbefore, List.append_assoc, List.drop_left]
  have htake : (name ++ 0 :: after).takeWhile (· ≠ 0) = name := by
    have hall : ∀ b ∈ name, decide (b ≠ 0) = true := fun b hb =>
      decide_eq_true fun h => hname (h ▸ hb)
    rw [List.takeWhile_append_of_pos hall, List.takeWhile_cons_of_neg (by simp), List.append_nil]
  simp only [cstring]
  rw [hrest, htake, if_pos (by simp)]

/-- Strings are only added at the end of a table. -/
theorem exists_writeSymbols (strtab : StringTable) (syms : List Symbol) :
    ∃ after, (writeSymbols strtab syms).2.bytes = strtab.bytes ++ after := by
  induction syms generalizing strtab with
  | nil => exact ⟨[], (List.append_nil _).symm⟩
  | cons sym syms ih =>
    obtain ⟨after, h⟩ := ih (strtab.add sym.name).2
    refine ⟨sym.name ++ [0] ++ after, ?_⟩
    show (writeSymbols (strtab.add sym.name).2 syms).2.bytes = _
    rw [h, StringTable.add]
    simp only [List.append_assoc]

/-- The names of the symbols are found at their offsets, as long as these fit in a field. -/
theorem cstring_offsets {strtab : StringTable} {syms : List Symbol}
    (hnames : ∀ sym ∈ syms, 0 ∉ sym.name)
    (hfits : (writeSymbols strtab syms).2.bytes.length ≤ 2 ^ 32) :
    ∀ r ∈ offsets strtab syms, cstring (writeSymbols strtab syms).2.bytes r.2 = some r.1.name := by
  induction syms generalizing strtab with
  | nil => exact fun r hr => absurd hr List.not_mem_nil
  | cons sym syms ih =>
    obtain ⟨hname, hnames⟩ := List.forall_mem_cons.1 hnames
    have htail : (writeSymbols strtab (sym :: syms)).2 =
        (writeSymbols (strtab.add sym.name).2 syms).2 := rfl
    rw [htail] at hfits ⊢
    refine List.forall_mem_cons.2 ⟨?_, ih hnames hfits⟩
    obtain ⟨after, hafter⟩ := exists_writeSymbols (strtab.add sym.name).2 syms
    have hbytes : (writeSymbols (strtab.add sym.name).2 syms).2.bytes =
        strtab.bytes ++ sym.name ++ 0 :: after := by
      rw [hafter, StringTable.add, List.append_assoc _ [0], List.singleton_append]
    rw [hbytes] at hfits ⊢
    refine cstring_append hname ?_
    rw [List.length_append, List.length_append, List.length_cons] at hfits
    omega

/-- What of a symbol is in the file: an undefined one has no type. -/
def Symbol.asWritten (sym : Symbol) : Symbol :=
  { sym with isFunction := sym.section_ ≠ .undefined && sym.isFunction }

/-- A symbol is read back from its entry. -/
theorem symbolOf_entry {sections : Sections} {strtab : List Byte} {sym : Symbol}
    {name : BitVec 32} (hname : cstring strtab name = some sym.name)
    (hkind : sections.kind (sectionIndex sym.section_).toNat = some sym.section_) :
    sections.symbolOf strtab (sym.entry name) = some sym.asWritten := by
  have hglobal := globalOf_symbolInfo sym.isGlobal sym.isFunction sym.section_
  have hfunction := functionOf_symbolInfo sym.isGlobal sym.isFunction sym.section_
  simp only [Sections.symbolOf, Symbol.entry, hname, hkind, hglobal, hfunction,
    Option.bind_eq_bind, Option.bind_some]
  rfl

/-! ## Relocations -/

/-- A relocation of the file: the symbol is the place in the table. -/
def Object.relocated (o : Object) (rel : Relocation) : Relocation :=
  { rel with symbol := o.remap.getD rel.symbol.toNat 0 }

/-- The two halves of the field of a relocation that has its symbol and its type. -/
theorem info_symbol (symbol type : BitVec 32) :
    ((symbol.setWidth 64 <<< 32 ||| type.setWidth 64) >>> 32).setWidth 32 = symbol := by
  ext i hi
  have hlow : i < 64 := by omega
  have hhigh : 32 + i < 64 := by omega
  simp [hi, hlow, hhigh]

theorem info_type (symbol type : BitVec 32) :
    (symbol.setWidth 64 <<< 32 ||| type.setWidth 64).setWidth 32 = type := by
  ext i hi
  simp

theorem reads_writeRela (o : Object) (rel : Relocation) :
    Reads (readRelaEntry rel.in_) (o.writeRela rel) (o.relocated rel) := by
  have h : Reads (readRelaEntry rel.in_) (o.writeRela rel) _ := Reads.of_eq
    ((reads_u64 rel.offset).bind <|
    (reads_u64 ((o.remap.getD rel.symbol.toNat 0).setWidth 64 <<< 32 |||
      rel.type.setWidth 64)).bind <| (reads_u64 rel.addend).bind_pure) (by
      simp only [Object.writeRela, List.append_assoc])
  rw [info_symbol, info_type] at h
  exact h

/-- The relocations in a section, in order. -/
def Object.relocationsIn (o : Object) (in_ : Section) : List Relocation :=
  o.relocations.filter fun rel => rel.in_ = in_

theorem reads_buildRela (o : Object) (in_ : Section) :
    Reads (times (o.relocationsIn in_).length (readRelaEntry in_)) (o.buildRela in_)
      ((o.relocationsIn in_).map o.relocated) := by
  refine Reads.times (o.relocationsIn in_) fun rel hrel => ?_
  obtain rfl : rel.in_ = in_ := by simpa using (List.mem_filter.1 hrel).2
  exact reads_writeRela o rel

@[simp] theorem length_writeRela (o : Object) (rel : Relocation) :
    (o.writeRela rel).length = 24 := by
  simp [Object.writeRela, u64]

/-! ## Entries -/

theorem length_buildRela (o : Object) (in_ : Section) :
    (o.buildRela in_).length = 24 * (o.relocationsIn in_).length :=
  length_flatMap_const (length_writeRela o) _

/-- A section of entries is read when its content is. -/
theorem entries_eq {α : Type} {h : SectionHeader} {file content : List Byte} {size n : Nat}
    {entry : Reader Byte α} {xs : List α} (hsize : 0 < size) (hentsize : h.entsize.toNat = size)
    (hcontent : h.content file = some content) (hlength : content.length = size * n)
    (hreads : Reads (times n entry) content xs) : h.entries file size entry = some xs := by
  have hcount : content.length / size = n := by rw [hlength, Nat.mul_div_cancel_left n hsize]
  simp only [SectionHeader.entries, hcontent, Option.bind_eq_bind, Option.bind_some]
  rw [if_pos hentsize, hcount, hreads.parse_eq]

end Mirage.Elf
