import Mirage.Lib.Align
import Mirage.Lib.Words

/-!
# The ELF writer

A relocatable object file from the contents of its sections, a list of symbols and a list of
relocations. The symbols are written in another order than they are given, the local ones
first, and a relocation names its symbol by its place in that order. The file is the header,
the contents of the sections, each at a multiple of its alignment, and the table of section
headers. The place of that table is patched into the header at the end.

Every section is placed and described in the same way, by a `Part`. A number is written in
the width of its field, whatever its size; the bytes of a file have no bound.
-/

namespace Mirage.Elf

abbrev Byte := BitVec 8

inductive Section
  | undefined | text | data | rodata | bss
  deriving DecidableEq, Repr

structure Symbol where
  name : List Byte
  section_ : Section := .undefined
  value : BitVec 64 := 0
  size : BitVec 64 := 0
  isGlobal : Bool := false
  isFunction : Bool := false
  deriving DecidableEq, Repr

structure Relocation where
  in_ : Section := .text
  offset : BitVec 64 := 0
  symbol : BitVec 32 := 0
  type : BitVec 32 := 0
  addend : BitVec 64 := 0
  deriving DecidableEq, Repr

structure Object where
  text : List Byte := []
  data : List Byte := []
  rodata : List Byte := []
  bssSize : BitVec 64 := 0
  textAlign : BitVec 64 := 16
  dataAlign : BitVec 64 := 8
  rodataAlign : BitVec 64 := 8
  bssAlign : BitVec 64 := 8
  symbols : List Symbol := []
  relocations : List Relocation := []
  deriving DecidableEq, Repr

def shtProgbits : BitVec 32 := 1
def shtSymtab : BitVec 32 := 2
def shtStrtab : BitVec 32 := 3
def shtRela : BitVec 32 := 4
def shtNobits : BitVec 32 := 8
def shfWrite : BitVec 64 := 0x1
def shfAlloc : BitVec 64 := 0x2
def shfExecinstr : BitVec 64 := 0x4

/-! The indices of the section headers, in the order in which the sections are written. -/

def shText : BitVec 16 := 1
def shRelaText : BitVec 16 := 2
def shData : BitVec 16 := 3
def shRelaData : BitVec 16 := 4
def shRodata : BitVec 16 := 5
def shRelaRodata : BitVec 16 := 6
def shBss : BitVec 16 := 7
def shSymtab : BitVec 16 := 8
def shStrtab : BitVec 16 := 9
def shShstrtab : BitVec 16 := 10
def shCount : BitVec 16 := 11

def sectionIndex : Section → BitVec 16
  | .text => shText
  | .data => shData
  | .rodata => shRodata
  | .bss => shBss
  | .undefined => 0

def u8 (v : BitVec 8) : List Byte := [v]
def u16 (v : BitVec 16) : List Byte := word 2 v
def u32 (v : BitVec 32) : List Byte := word 4 v
def u64 (v : BitVec 64) : List Byte := word 8 v

/-- Zeros up to the next multiple of an alignment; the alignments 0 and 1 need none. -/
def padTo (align : Nat) (bytes : List Byte) : List Byte :=
  bytes ++ List.replicate (roundUp bytes.length align - bytes.length) 0

structure StringTable where
  bytes : List Byte := [0]
  deriving DecidableEq, Repr

/-- The table with one more string, and the offset of that string. -/
def StringTable.add (t : StringTable) (s : List Byte) : BitVec 32 × StringTable :=
  (BitVec.ofNat 32 t.bytes.length, ⟨t.bytes ++ s ++ [0]⟩)

/-! ## Symbols -/

namespace Object

variable (o : Object)

def isGlobal (i : Nat) : Bool := o.symbols[i]?.any Symbol.isGlobal

/-- The indices of the symbols in the order in which they are written: the stable sort by
    "`a` is local and `b` is global". -/
def order : List Nat :=
  (List.range o.symbols.length).mergeSort fun a b => !(!o.isGlobal b && o.isGlobal a)

/-- The places of the symbols in the table, which begins with a null entry. -/
def remap : List (BitVec 32) :=
  o.order.zipIdx.foldl (fun remap r => remap.set r.1 (BitVec.ofNat 32 (r.2 + 1)))
    (List.replicate o.symbols.length 0)

/-- The place of the first global symbol in the table. -/
def firstGlobal : BitVec 32 :=
  match o.order.findIdx? o.isGlobal with
  | some i => BitVec.ofNat 32 (i + 1)
  | none => BitVec.ofNat 32 o.order.length + 1

/-- The symbols in the order in which they are written. -/
def ordered : List Symbol := o.order.filterMap fun i => o.symbols[i]?

end Object

def writeSymbol (sym : Symbol) (name : BitVec 32) : List Byte :=
  let bind : BitVec 8 := if sym.isGlobal then 1 else 0
  let type : BitVec 8 := if sym.section_ = .undefined then 0 else if sym.isFunction then 2 else 1
  u32 name ++ u8 (bind <<< 4 ||| type) ++ u8 0 ++ u16 (sectionIndex sym.section_) ++
    u64 sym.value ++ u64 sym.size

/-- The entries of symbols, whose names are added to the string table. -/
def writeSymbols : StringTable → List Symbol → List Byte × StringTable
  | strtab, [] => ([], strtab)
  | strtab, sym :: syms =>
    let (name, strtab) := strtab.add sym.name
    let (entries, strtab) := writeSymbols strtab syms
    (writeSymbol sym name ++ entries, strtab)

namespace Object

variable (o : Object)

def symtab : List Byte := List.replicate 24 0 ++ (writeSymbols {} o.ordered).1

def strtab : List Byte := (writeSymbols {} o.ordered).2.bytes

/-! ## Relocations -/

def writeRela (rel : Relocation) : List Byte :=
  let symbol := o.remap.getD rel.symbol.toNat 0
  u64 rel.offset ++ u64 (symbol.setWidth 64 <<< 32 ||| rel.type.setWidth 64) ++ u64 rel.addend

def buildRela (in_ : Section) : List Byte :=
  (o.relocations.filter fun rel => rel.in_ = in_).flatMap o.writeRela

end Object

/-! ## Sections -/

def ascii (s : String) : List Byte := s.toList.map fun c => BitVec.ofNat 8 c.toNat

/-- The names of the sections, in the order of their headers. -/
def sectionNames : List (List Byte) :=
  [".text", ".rela.text", ".data", ".rela.data", ".rodata", ".rela.rodata", ".bss", ".symtab",
    ".strtab", ".shstrtab"].map ascii

/-- A table with several strings more, and their offsets. -/
def StringTable.addAll : StringTable → List (List Byte) → List (BitVec 32) × StringTable
  | t, [] => ([], t)
  | t, s :: ss =>
    let (offset, t) := t.add s
    let (offsets, t) := t.addAll ss
    (offset :: offsets, t)

def shstrtab : List Byte := (({} : StringTable).addAll sectionNames).2.bytes

/-- The offset of the name of the section with an index. -/
def sectionName (index : BitVec 16) : BitVec 32 :=
  (({} : StringTable).addAll sectionNames).1.getD (index.toNat - 1) 0

/-- A section: what is placed for it in the file, and what its header says of it. The content
    of `.bss` has a size and no bytes. -/
structure Part where
  name : BitVec 32
  type : BitVec 32
  flags : BitVec 64
  content : List Byte
  size : BitVec 64
  link : BitVec 32
  info : BitVec 32
  align : BitVec 64
  entsize : BitVec 64

/-- A section whose bytes are in the file. -/
def Part.ofBytes (index : BitVec 16) (type : BitVec 32) (flags : BitVec 64) (content : List Byte)
    (link info : BitVec 32) (align entsize : BitVec 64) : Part where
  name := sectionName index
  type := type
  flags := flags
  content := content
  size := BitVec.ofNat 64 content.length
  link := link
  info := info
  align := align
  entsize := entsize

/-- The relocations of a section. -/
def Part.ofRela (index target : BitVec 16) (content : List Byte) : Part :=
  .ofBytes index shtRela 0 content (shSymtab.setWidth 32) (target.setWidth 32) 8 24

namespace Object

variable (o : Object)

def textPart : Part :=
  .ofBytes shText shtProgbits (shfAlloc ||| shfExecinstr) o.text 0 0 o.textAlign 0

def relaTextPart : Part := .ofRela shRelaText shText (o.buildRela .text)

def dataPart : Part :=
  .ofBytes shData shtProgbits (shfAlloc ||| shfWrite) o.data 0 0 o.dataAlign 0

def relaDataPart : Part := .ofRela shRelaData shData (o.buildRela .data)

def rodataPart : Part := .ofBytes shRodata shtProgbits shfAlloc o.rodata 0 0 o.rodataAlign 0

def relaRodataPart : Part := .ofRela shRelaRodata shRodata (o.buildRela .rodata)

def bssPart : Part where
  name := sectionName shBss
  type := shtNobits
  flags := shfAlloc ||| shfWrite
  content := []
  size := o.bssSize
  link := 0
  info := 0
  align := o.bssAlign
  entsize := 0

def symtabPart : Part :=
  .ofBytes shSymtab shtSymtab 0 o.symtab (shStrtab.setWidth 32) o.firstGlobal 8 24

def strtabPart : Part := .ofBytes shStrtab shtStrtab 0 o.strtab 0 0 1 0

def shstrtabPart : Part := .ofBytes shShstrtab shtStrtab 0 shstrtab 0 0 1 0

/-- The sections, in the order in which they are placed and described. -/
def parts : List Part :=
  [o.textPart, o.relaTextPart, o.dataPart, o.relaDataPart, o.rodataPart, o.relaRodataPart,
    o.bssPart, o.symtabPart, o.strtabPart, shstrtabPart]

end Object

/-! ## The file -/

/-- The header of the file, whose `e_shoff` is still to be patched. -/
def ehdr : List Byte :=
  [0x7f, 0x45, 0x4c, 0x46, 2, 1, 1, 0] ++ List.replicate 8 0 ++ u16 1 ++ u16 0x3E ++ u32 1 ++
    u64 0 ++ u64 0 ++ u64 0 ++ u32 0 ++ u16 64 ++ u16 0 ++ u16 0 ++ u16 64 ++ u16 shCount ++
    u16 shShstrtab

/-- Where `e_shoff` is. -/
def shoffField : Nat := 40

/-- The contents placed one after the other behind a file, each with its offset. -/
def placeAll : List Byte → List Part → List (Part × BitVec 64) × List Byte
  | out, [] => ([], out)
  | out, part :: parts =>
    let out := padTo part.align.toNat out
    let (placed, file) := placeAll (out ++ part.content) parts
    ((part, BitVec.ofNat 64 out.length) :: placed, file)

def shdr (part : Part) (offset : BitVec 64) : List Byte :=
  u32 part.name ++ u32 part.type ++ u64 part.flags ++ u64 0 ++ u64 offset ++ u64 part.size ++
    u32 part.link ++ u32 part.info ++ u64 part.align ++ u64 part.entsize

/-- The header of the section 0. -/
def nullHeader : List Byte := List.replicate 64 0

/-- The bytes from an offset on replaced. -/
def patch (out : List Byte) (offset : Nat) (bytes : List Byte) : List Byte :=
  out.take offset ++ bytes ++ out.drop (offset + bytes.length)

def write (o : Object) : List Byte :=
  let (placed, out) := placeAll ehdr o.parts
  let out := padTo 8 out
  let shoff := BitVec.ofNat 64 out.length
  let out := out ++ nullHeader ++ placed.flatMap fun r => shdr r.1 r.2
  patch out shoffField (u64 shoff)

end Mirage.Elf
