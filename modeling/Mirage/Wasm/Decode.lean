import Mirage.Wasm.Encoder

/-!
# A reader of wasm binaries

The binary format read back: the magic number, then the sections in ascending order of
their ids, each of which may be missing, up to the end of the file. A section has to be
exactly as long as it says, and so does the body of a function. Numbers are LEB128 of the
width the format gives them; the lengths and counts have no bound, so that a module is read
whatever its size.

The instructions of a body are kept as bytes, and its local declarations are expanded.
-/

namespace Mirage.Wasm.Encoder

open Leb128 (readUleb readU readS)
open Reader (item token ofOption takeExactly remaining times within)

/-- The type with a byte. -/
def ValType.ofCode (b : Byte) : Option ValType :=
  [ValType.i32, .i64, .f32, .f64, .funcref].find? fun type => type.code = b

/-- What an export of a byte's kind names. -/
def ExportKind.ofCode (b : Byte) : Option ExportKind :=
  [ExportKind.function, .table, .memory, .global].find? fun kind => kind.code = b

/-- An offset and the function indices put there. -/
structure ElementSegment where
  offset : BitVec 32
  indices : List (BitVec 32)
  deriving DecidableEq, Repr

/-- What a binary says. The limits of a table or a memory are a minimum and maybe a maximum. -/
structure Contents where
  types : List FuncType
  imports : List Import
  functions : List (BitVec 32)
  tables : List (BitVec 32 × Option (BitVec 32))
  memories : List (BitVec 32 × Option (BitVec 32))
  globals : List Global
  exports : List Export
  elements : List ElementSegment
  codes : List (List ValType × List Byte)
  data : List DataSegment
  deriving DecidableEq, Repr

/-- A vector: a count and as many values. -/
def readVec {α : Type} (p : Reader Byte α) : Reader Byte (List α) := do
  let n ← readUleb
  times n p

/-- A number of 32 bits. -/
def readU32 : Reader Byte (BitVec 32) := do
  let n ← readU 32
  pure (BitVec.ofNat 32 n)

/-- A name. -/
def readName : Reader Byte (List Byte) := do
  let n ← readUleb
  takeExactly n

/-- A type of values. -/
def readValType : Reader Byte ValType := do
  let b ← item
  ofOption (ValType.ofCode b)

/-- A function type. -/
def readFuncType : Reader Byte FuncType := do
  token 0x60
  let params ← readVec readValType
  let results ← readVec readValType
  pure { params, results }

/-- A function import. -/
def readImport : Reader Byte Import := do
  let module ← readName
  let name ← readName
  token 0x00
  let typeIndex ← readU32
  pure { module, name, typeIndex }

/-- The limits of a table or a memory. -/
def readLimits : Reader Byte (BitVec 32 × Option (BitVec 32)) := do
  let flag ← item
  let least ← readU32
  if flag = 0x00 then pure (least, none)
  else if flag = 0x01 then do
    let most ← readU32
    pure (least, some most)
  else failure

/-- A table of functions. -/
def readTable : Reader Byte (BitVec 32 × Option (BitVec 32)) := do
  token 0x70
  readLimits

/-- A constant of either width, sign-extended. -/
def readConst : Reader Byte (BitVec 64) := do
  let opcode ← item
  let value ← if opcode = 0x42 then readS 64 else if opcode = 0x41 then readS 32 else failure
  token 0x0B
  pure (BitVec.ofInt 64 value)

/-- A constant address. -/
def readOffset : Reader Byte (BitVec 32) := do
  token 0x41
  let value ← readS 32
  token 0x0B
  pure (BitVec.ofInt 32 value)

/-- A flag. -/
def readMutable : Reader Byte Bool := do
  let b ← item
  if b = 0x00 then pure false else if b = 0x01 then pure true else failure

/-- A global. -/
def readGlobal : Reader Byte Global := do
  let type ← readValType
  let mutable_ ← readMutable
  let init ← readConst
  pure { type, mutable_, init }

/-- An export. -/
def readExport : Reader Byte Export := do
  let name ← readName
  let b ← item
  let kind ← ofOption (ExportKind.ofCode b)
  let index ← readU32
  pure { name, kind, index }

/-- An active element segment of table 0. -/
def readElement : Reader Byte ElementSegment := do
  token 0x00
  let offset ← readOffset
  let indices ← readVec readU32
  pure { offset, indices }

/-- A run of locals of one type. -/
def readLocals : Reader Byte (List ValType) := do
  let count ← readU32
  let type ← readValType
  pure (List.replicate count.toNat type)

/-- All that is left, which has to close with `end`. -/
def readInstructions : Reader Byte (List Byte) := do
  let bytes ← remaining
  if bytes.getLast? = some 0x0B then pure bytes.dropLast else failure

/-- The local declarations and the instructions of a body. -/
def readBody : Reader Byte (List ValType × List Byte) := do
  let locals ← readVec readLocals
  let bytes ← readInstructions
  pure (locals.flatten, bytes)

/-- A body after its length. -/
def readCode : Reader Byte (List ValType × List Byte) := do
  let n ← readUleb
  within n readBody

/-- An active data segment of memory 0. -/
def readData : Reader Byte DataSegment := do
  token 0x00
  let offset ← readOffset
  let n ← readUleb
  let bytes ← takeExactly n
  pure { offset, bytes }

/-- A section of one vector, empty when the section is not there. -/
def readSection {α : Type} (id : Byte) (p : Reader Byte α) : Reader Byte (List α) :=
  Reader.optional id (do
    let n ← readUleb
    within n (readVec p)) []

/-- The sections, and nothing after them. -/
def readSections : Reader Byte Contents := do
  let types ← readSection 1 readFuncType
  let imports ← readSection 2 readImport
  let functions ← readSection 3 readU32
  let tables ← readSection 4 readTable
  let memories ← readSection 5 readLimits
  let globals ← readSection 6 readGlobal
  let exports ← readSection 7 readExport
  let elements ← readSection 9 readElement
  let codes ← readSection 10 readCode
  let data ← readSection 11 readData
  pure { types, imports, functions, tables, memories, globals, exports, elements, codes, data }

/-- The contents of a binary. -/
def decode (binary : List Byte) : Option Contents :=
  if binary.take 8 = header then Reader.parse readSections (binary.drop 8) else none

/-- What a module is meant to say. -/
def Module.contents (m : Module) : Contents where
  types := m.types
  imports := m.imports
  functions := m.functions.map Function.typeIndex
  tables := if 0 < m.tableSize.toNat then [(m.tableSize, none)] else []
  memories := if 0 < m.memoryMinPages.toNat then [(m.memoryMinPages, none)] else []
  globals := m.globals
  exports := m.exports
  elements := if m.tableElements = [] then [] else [⟨1, m.tableElements⟩]
  codes := m.functions.map fun function => (function.locals, function.body.bytes)
  data := m.data

end Mirage.Wasm.Encoder
