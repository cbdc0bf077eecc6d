import Mirage.Elf.Writer

/-!
# A reader of object files

The format read back from its section headers: the header of the file says where their table
is, the section names are in the string table it points to, and a section is found by its name
or its type. A symbol table has a null entry, which is dropped, and the section of its header
that is linked has the names. A relocation section names in its header the section it is about.

Only objects of the sections `.text`, `.data`, `.rodata` and `.bss` are read.
-/

namespace Mirage.Elf

open Reader (takeExactly times token)

def readU16 : Reader Byte (BitVec 16) := readWord 2 16
def readU32 : Reader Byte (BitVec 32) := readWord 4 32
def readU64 : Reader Byte (BitVec 64) := readWord 8 64

/-- What the header of a file says of the table of section headers. -/
structure FileHeader where
  shoff : BitVec 64
  shentsize : BitVec 16
  shnum : BitVec 16
  shstrndx : BitVec 16
  deriving DecidableEq, Repr

/-- The header of a little-endian relocatable file of 64 bits. -/
def readFileHeader : Reader Byte FileHeader := do
  let ident ← takeExactly 16
  let type ← readU16
  let _machine ← readU16
  let _version ← readU32
  let _entry ← readU64
  let _phoff ← readU64
  let shoff ← readU64
  let _flags ← readU32
  let _ehsize ← readU16
  let _phentsize ← readU16
  let _phnum ← readU16
  let shentsize ← readU16
  let shnum ← readU16
  let shstrndx ← readU16
  if ident.take 7 = [0x7f, 0x45, 0x4c, 0x46, 2, 1, 1] ∧ type = 1 then
    pure { shoff, shentsize, shnum, shstrndx }
  else failure

structure SectionHeader where
  name : BitVec 32
  type : BitVec 32
  flags : BitVec 64
  offset : BitVec 64
  size : BitVec 64
  link : BitVec 32
  info : BitVec 32
  align : BitVec 64
  entsize : BitVec 64
  deriving DecidableEq, Repr

def readSectionHeader : Reader Byte SectionHeader := do
  let name ← readU32
  let type ← readU32
  let flags ← readU64
  let _addr ← readU64
  let offset ← readU64
  let size ← readU64
  let link ← readU32
  let info ← readU32
  let align ← readU64
  let entsize ← readU64
  pure { name, type, flags, offset, size, link, info, align, entsize }

/-- An entry of the symbol table. -/
structure SymbolEntry where
  name : BitVec 32
  info : BitVec 8
  other : BitVec 8
  shndx : BitVec 16
  value : BitVec 64
  size : BitVec 64
  deriving DecidableEq, Repr

def readSymbolEntry : Reader Byte SymbolEntry := do
  let name ← readU32
  let info ← readWord 1 8
  let other ← readWord 1 8
  let shndx ← readU16
  let value ← readU64
  let size ← readU64
  pure { name, info, other, shndx, value, size }

/-- A relocation of a section, whose symbol is an index of the symbol table. -/
def readRelaEntry (in_ : Section) : Reader Byte Relocation := do
  let offset ← readU64
  let info ← readU64
  let addend ← readU64
  pure { in_, offset, symbol := (info >>> 32).setWidth 32, type := info.setWidth 32, addend }

/-- The bytes a section takes of the file. -/
def SectionHeader.fileSize (h : SectionHeader) : Nat :=
  if h.type = shtNobits then 0 else h.size.toNat

def SectionHeader.content (h : SectionHeader) (file : List Byte) : Option (List Byte) :=
  slice file h.offset.toNat h.fileSize

/-- All of a section read as entries of a size. -/
def SectionHeader.entries {α : Type} (h : SectionHeader) (file : List Byte) (size : Nat)
    (entry : Reader Byte α) : Option (List α) := do
  let content ← h.content file
  if h.entsize.toNat = size then
    Reader.parse (times (content.length / size) entry) content
  else none

/-- The string that begins at an offset of a string table. -/
def cstring (table : List Byte) (offset : BitVec 32) : Option (List Byte) :=
  let rest := table.drop offset.toNat
  if 0 ∈ rest then some (rest.takeWhile (· ≠ 0)) else none

/-- The sections of a file, with their names. -/
abbrev Sections := List (List Byte × SectionHeader)

namespace Sections

variable (sections : Sections)

/-- The section with a name. -/
def named (name : String) : Option SectionHeader :=
  (sections.find? fun s => s.1 = ascii name).map Prod.snd

def kindOfName (name : List Byte) : Option Section :=
  if name = ascii ".text" then some .text
  else if name = ascii ".data" then some .data
  else if name = ascii ".rodata" then some .rodata
  else if name = ascii ".bss" then some .bss
  else none

/-- What the section with an index is for. -/
def kind (index : Nat) : Option Section :=
  if index = 0 then some .undefined else sections[index]?.bind fun s => kindOfName s.1

/-- Whether a symbol is global, by the upper half of the byte that says what it is. -/
def globalOf (info : BitVec 8) : Option Bool :=
  if info >>> 4 = 0 then some false else if info >>> 4 = 1 then some true else none

/-- Whether a symbol is a function, by the lower half. -/
def functionOf (info : BitVec 8) : Option Bool :=
  if info &&& 0xF = 0 then some false
  else if info &&& 0xF = 1 then some false
  else if info &&& 0xF = 2 then some true
  else none

/-- A symbol from its entry and the table of the names. -/
def symbolOf (strtab : List Byte) (e : SymbolEntry) : Option Symbol := do
  let name ← cstring strtab e.name
  let section_ ← sections.kind e.shndx.toNat
  let isGlobal ← globalOf e.info
  let isFunction ← functionOf e.info
  pure { name, section_, value := e.value, size := e.size, isGlobal, isFunction }

/-- The symbols of a table, behind the null entry. -/
def symbols (file : List Byte) (table : SectionHeader) : Option (List Symbol) := do
  let entries ← table.entries file 24 readSymbolEntry
  let strings ← sections[table.link.toNat]?
  let strtab ← strings.2.content file
  entries.tail.mapM (sections.symbolOf strtab)

/-- The relocations in a section of relocations. -/
def relocations (file : List Byte) (table : SectionHeader) : Option (List Relocation) := do
  let in_ ← sections.kind table.info.toNat
  table.entries file 24 (readRelaEntry in_)

end Sections

/-- What an object file says. The symbol of a relocation is an index of the symbol table, in
    which the null entry is in front of the symbols. -/
structure File where
  headers : List SectionHeader
  text : List Byte
  data : List Byte
  rodata : List Byte
  bssSize : BitVec 64
  symbols : List Symbol
  firstGlobal : BitVec 32
  relocations : List Relocation
  deriving DecidableEq, Repr

/-- The section headers of a file, with their names. -/
def readSections (file : List Byte) : Option Sections := do
  let (header, _) ← readFileHeader file
  let table ← slice file header.shoff.toNat (header.shentsize.toNat * header.shnum.toNat)
  let headers ← Reader.parse (times header.shnum.toNat readSectionHeader) table
  let strings ← headers[header.shstrndx.toNat]?
  let names ← strings.content file
  headers.mapM fun h => (cstring names h.name).map fun name => (name, h)

def parse (file : List Byte) : Option File := do
  let sections ← readSections file
  let text ← (← sections.named ".text").content file
  let data ← (← sections.named ".data").content file
  let rodata ← (← sections.named ".rodata").content file
  let bss ← sections.named ".bss"
  let symtab ← (sections.map Prod.snd).find? fun h => h.type = shtSymtab
  let symbols ← sections.symbols file symtab
  let relocations ← ((sections.map Prod.snd).filter fun h => h.type = shtRela).mapM
    (sections.relocations file)
  pure ⟨sections.map Prod.snd, text, data, rodata, bss.size, symbols, symtab.info,
    relocations.flatten⟩

end Mirage.Elf
