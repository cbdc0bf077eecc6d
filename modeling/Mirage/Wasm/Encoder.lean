import Mirage.Lib.Leb128

/-!
# The wasm encoder

The byte-level half of the wasm backend: a module is kept as data until it is
serialized to the binary format, sections in ascending order of their ids, each with
its length in front (`section_`), integers in LEB128. What a vector of the format
holds is written after its count (`vec`).

A section with nothing to say is left out, but the types' is always there. A function
body declares its locals run by run: equal neighbours are one declaration with a
count, and the count is 32 bits (`runs`).

An initializer of a global is an `i64.const` for an `i64` and an `i32.const` of the low
32 bits otherwise, and so is the offset of a data segment: a `uint32_t` is written as the
`int32_t` with its bits.

Lengths are written as the `uint64_t` they are; a list's length stands for it. A name is its
bytes.
-/

namespace Mirage.Wasm.Encoder

open Leb128 (uleb sleb)

/-- A byte of the binary. -/
abbrev Byte := BitVec 8

/-- The types of values. -/
inductive ValType where
  | i32
  | i64
  | f32
  | f64
  | funcref
  deriving DecidableEq, Repr

/-- The byte of a type. -/
def ValType.code : ValType → Byte
  | .i32 => 0x7F
  | .i64 => 0x7E
  | .f32 => 0x7D
  | .f64 => 0x7C
  | .funcref => 0x70

/-- The type of a function. -/
structure FuncType where
  params : List ValType
  results : List ValType
  deriving DecidableEq, Repr

/-- A relocation inside a code stream or a data segment: the offset is relative to the
    stream's own start. -/
structure Reloc where
  type : Byte
  offset : BitVec 32
  index : BitVec 32
  addend : BitVec 64
  deriving DecidableEq, Repr

/-- The instruction stream of one function body, without the trailing `end`. -/
structure Code where
  bytes : List Byte
  relocs : List Reloc
  deriving DecidableEq, Repr

/-- An imported function. -/
structure Import where
  module : List Byte
  name : List Byte
  typeIndex : BitVec 32
  deriving DecidableEq, Repr

/-- A global with its constant initializer. -/
structure Global where
  type : ValType
  mutable_ : Bool
  init : BitVec 64
  deriving DecidableEq, Repr

/-- What an export names. -/
inductive ExportKind where
  | function
  | table
  | memory
  | global
  deriving DecidableEq, Repr

/-- The byte of what an export names. -/
def ExportKind.code : ExportKind → Byte
  | .function => 0
  | .table => 1
  | .memory => 2
  | .global => 3

/-- An export. -/
structure Export where
  name : List Byte
  kind : ExportKind
  index : BitVec 32
  deriving DecidableEq, Repr

/-- A segment of the default memory. -/
structure DataSegment where
  offset : BitVec 32
  bytes : List Byte
  deriving DecidableEq, Repr

/-- A function of the module: its locals are those beyond the parameters. -/
structure Function where
  typeIndex : BitVec 32
  locals : List ValType
  body : Code
  deriving DecidableEq, Repr

/-- A module. -/
structure Module where
  types : List FuncType
  imports : List Import
  functions : List Function
  tableSize : BitVec 32
  tableElements : List (BitVec 32)
  memoryMinPages : BitVec 32
  globals : List Global
  exports : List Export
  data : List DataSegment

/-! ### Parts -/

/-- A count and what it counts, one after the other. -/
def vec {α : Type} (write : α → List Byte) (xs : List α) : List Byte :=
  uleb xs.length ++ xs.flatMap write

/-- The bytes of a name after their number. -/
def name (text : List Byte) : List Byte := uleb text.length ++ text

/-- A section: its id, the length of its payload, the payload; nothing for an empty payload. -/
def section_ (id : Byte) (payload : List Byte) : List Byte :=
  if payload = [] then [] else id :: (uleb payload.length ++ payload)

/-- The form byte of a function type and its two vectors of types. -/
def funcType (type : FuncType) : List Byte :=
  0x60 :: (vec (fun param => [param.code]) type.params ++
    vec (fun result => [result.code]) type.results)

/-- A function import. -/
def importEntry (i : Import) : List Byte :=
  name i.module ++ name i.name ++ 0x00 :: uleb i.typeIndex.toNat

/-- A global: its type, whether it is mutable, and its initializer. -/
def globalEntry (global : Global) : List Byte :=
  global.type.code :: (if global.mutable_ then 0x01 else 0x00) ::
    ((if global.type = .i64 then 0x42 :: sleb global.init.toInt
      else 0x41 :: sleb (global.init.setWidth 32).toInt) ++ [0x0B])

/-- An export. -/
def exportEntry (entry : Export) : List Byte :=
  name entry.name ++ entry.kind.code :: uleb entry.index.toNat

/-- One more local: a longer last run, or a run of its own. -/
def pushLocal (runs : List (ValType × BitVec 32)) (type : ValType) : List (ValType × BitVec 32) :=
  match runs.getLast? with
  | some (last, count) =>
    if last = type then runs.dropLast ++ [(last, count + 1)] else runs ++ [(type, 1)]
  | none => [(type, 1)]

/-- The run-length-compressed local declarations. -/
def runs (locals : List ValType) : List (ValType × BitVec 32) := locals.foldl pushLocal []

/-- The local declarations of a function. -/
def localDecls (locals : List ValType) : List Byte :=
  vec (fun run : ValType × BitVec 32 => uleb run.2.toNat ++ [run.1.code]) (runs locals)

/-- A function's body: its local declarations, its instructions and `end`. -/
def functionBody (function : Function) : List Byte :=
  localDecls function.locals ++ function.body.bytes ++ [0x0B]

/-- A body after its length. -/
def codeEntry (function : Function) : List Byte :=
  uleb (functionBody function).length ++ functionBody function

/-- A data segment: active, in memory 0, at a constant offset. -/
def dataEntry (segment : DataSegment) : List Byte :=
  0x00 :: 0x41 :: (sleb segment.offset.toInt ++ 0x0B ::
    (uleb segment.bytes.length ++ segment.bytes))

/-! ### The module -/

/-- The magic number and the version. -/
def header : List Byte := [0x00, 0x61, 0x73, 0x6D, 0x01, 0x00, 0x00, 0x00]

namespace Module

variable (m : Module)

/-- Section 1. -/
def typeSection : List Byte := section_ 1 (vec funcType m.types)

/-- Section 2. -/
def importSection : List Byte :=
  if m.imports = [] then [] else section_ 2 (vec importEntry m.imports)

/-- Section 3. -/
def functionSection : List Byte :=
  if m.functions = [] then []
  else section_ 3 (vec (fun function => uleb function.typeIndex.toNat) m.functions)

/-- Section 4: one table, with a minimum only. -/
def tableSection : List Byte :=
  if 0 < m.tableSize.toNat then
    section_ 4 (uleb 1 ++ ValType.funcref.code :: 0x00 :: uleb m.tableSize.toNat)
  else []

/-- Section 5: one memory, with a minimum only. -/
def memorySection : List Byte :=
  if 0 < m.memoryMinPages.toNat then section_ 5 (uleb 1 ++ 0x00 :: uleb m.memoryMinPages.toNat)
  else []

/-- Section 6. -/
def globalSection : List Byte :=
  if m.globals = [] then [] else section_ 6 (vec globalEntry m.globals)

/-- Section 7. -/
def exportSection : List Byte :=
  if m.exports = [] then [] else section_ 7 (vec exportEntry m.exports)

/-- Section 9: one active segment at table offset 1. -/
def elementSection : List Byte :=
  if m.tableElements = [] then []
  else section_ 9 (uleb 1 ++ 0x00 :: 0x41 :: (sleb 1 ++ 0x0B ::
    vec (fun index => uleb index.toNat) m.tableElements))

/-- Section 10. -/
def codeSection : List Byte :=
  if m.functions = [] then [] else section_ 10 (vec codeEntry m.functions)

/-- Section 11. -/
def dataSection : List Byte :=
  if m.data = [] then [] else section_ 11 (vec dataEntry m.data)

/-- The binary of a module. -/
def serialize : List Byte :=
  header ++ (m.typeSection ++ (m.importSection ++ (m.functionSection ++ (m.tableSection ++
    (m.memorySection ++ (m.globalSection ++ (m.exportSection ++ (m.elementSection ++
      (m.codeSection ++ m.dataSection)))))))))

end Module

end Mirage.Wasm.Encoder
