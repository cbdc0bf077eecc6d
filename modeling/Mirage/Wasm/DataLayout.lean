import Mirage.Lang.Layout
import Mirage.Mir.Globals

/-!
# The data layout of a WebAssembly module

Addresses below `dataBase` are a guard. Behind it stand the globals with an initializer, whose
bytes are one data segment, then the zero-initialized ones, then the shadow stack; both kinds of
globals are placed by one cursor of 32 bits. A function whose address is taken has a slot in
the table, from slot 1 on. Relocations are stored into the image of the data segment: the slot
of a function, or the address of a global.
-/

namespace Mirage.Wasm

open Types (wrap32 alignUp)

def dataBase : Nat := 1024

def stackSize : Nat := 2 ^ 20

def pageSize : Nat := 65536

variable (m : DataModule)

/-! ## Functions -/

/-- An instruction of a function with a body. -/
def anyInst (p : Inst → Bool) : Bool :=
  m.functions.any fun fn => fn.hasBody && fn.blocks.any fun block => block.insts.any p

/-- A relocation against a function. -/
def relocated (i : Nat) : Bool :=
  m.globalDefs.any fun g => g.relocations.any fun r => r.kind == .functionAddr && r.target == i

def addressTaken (i : Nat) : Bool :=
  anyInst m (fun inst => inst.op == .funcAddr && inst.a == i) || relocated m i

def referenced (i : Nat) : Bool :=
  anyInst m (fun inst => (inst.op == .call || inst.op == .funcAddr) && inst.a == i) || relocated m i

/-- The marked ones are numbered. -/
def number : Nat → List Bool → List (Option Nat)
  | _, [] => []
  | next, true :: marks => some next :: number (next + 1) marks
  | next, false :: marks => none :: number next marks

/-- Functions that are declared only, and used. -/
def importMarks : List Bool :=
  m.functions.zipIdx.map fun (fn, i) => !fn.hasBody && referenced m i

/-- The imports: functions, and a library function for each type of float remainder. -/
def importCount : Nat :=
  (importMarks m).count true +
    (if anyInst m fun inst => inst.op == .frem && inst.type == .f64 then 1 else 0) +
    if anyInst m fun inst => inst.op == .frem && inst.type != .f64 then 1 else 0

/-- `wasm_index`: the imports first, then the functions with a body; `none` for an import
    that is not used. -/
def wasmIndex : List (Option Nat) :=
  List.zipWith (fun imported defined => (defined : Option Nat).or imported)
    (number 0 (importMarks m)) (number (importCount m) (m.functions.map Function.hasBody))

/-- The function table: the slot of each function, 0 for none, and the elements from slot 1 on. -/
structure FunctionTable where
  slots : List Nat := []
  elements : List Nat := []

def tableStep (table : FunctionTable) (i : Nat) : FunctionTable :=
  match if addressTaken m i then ((wasmIndex m)[i]?).join else none with
  | some index =>
    { slots := table.slots ++ [table.elements.length + 1], elements := table.elements ++ [index] }
  | none => { table with slots := table.slots ++ [0] }

def functionTable : FunctionTable := (List.range m.functions.length).foldl (tableStep m) {}

def tableSlot (i : Nat) : Nat := (functionTable m).slots.getD i 0

def tableSize : Nat := (functionTable m).elements.length + 1

/-! ## Memory -/

/-- The cursor, and the addresses that are given. -/
structure Placing where
  cursor : Nat := dataBase
  address : Nat → Nat := fun _ => 0

/-- The next global, with its index. -/
def Placing.place (p : Placing) (g : Global × Nat) : Placing :=
  let at' := alignUp p.cursor (max 1 g.1.align)
  { cursor := wrap32 (at' + max 1 g.1.size)
    address := fun i => if i = g.2 then at' else p.address i }

/-- One pass over the globals. -/
def placeAll (isPlaced : Global → Bool) (p : Placing) : Placing :=
  m.globalDefs.zipIdx.foldl (fun p g => if isPlaced g.1 then p.place g else p) p

def dataPlaced : Placing := placeAll m (fun g => !g.init.isEmpty) {}

def allPlaced : Placing := placeAll m (fun g => g.init.isEmpty) (dataPlaced m)

def globalAddress (i : Nat) : Nat := (allPlaced m).address i

def dataEnd : Nat := (dataPlaced m).cursor

def stackBase : Nat := wrap32 ((allPlaced m).cursor + 15) / 16 * 16

def stackTop : Nat := wrap32 (stackBase m + stackSize)

def memoryMinPages : Nat := wrap32 (wrap32 (stackTop m + pageSize - 1) / pageSize + 16)

/-! ## The image -/

/-- A difference of type `uint32_t`. -/
def sub32 (x y : Nat) : Nat := wrap32 (x + (2 ^ 32 - y))

/-- What is stored for a relocation. -/
def relocValue (r : Relocation) : Nat :=
  wrap32 ((match r.kind with
    | .functionAddr => tableSlot m r.target
    | .globalAddr => globalAddress m r.target) + wrap32 r.addend.toNat)

def copyInit (image : Blob) (g : Global × Nat) : Blob :=
  if g.1.init.isEmpty then image
  else image.write (sub32 (globalAddress m g.2) dataBase) g.1.init

def patchGlobal (image : Blob) (g : Global × Nat) : Blob :=
  if g.1.init.isEmpty then image
  else g.1.relocations.foldl (fun image r =>
    image.store32 (wrap32 (sub32 (globalAddress m g.2) dataBase + r.offset)) (relocValue m r)) image

def image : Blob :=
  m.globalDefs.zipIdx.foldl (patchGlobal m)
    (m.globalDefs.zipIdx.foldl (copyInit m) fun _ => 0)

/-- The errors for relocations against functions without a slot: their names. -/
def slotErrors : List String :=
  m.globalDefs.flatMap fun g =>
    if g.init.isEmpty then [] else g.relocations.filterMap fun r =>
      if r.kind = .functionAddr ∧ tableSlot m r.target = 0 then
        some (m.functions.getD r.target {}).name else none

/-- The data segments: offset and bytes. -/
def dataSegments : List (Nat × List (BitVec 8)) :=
  if dataEnd m > dataBase then [(dataBase, (image m).bytes 0 (dataEnd m - dataBase))] else []

/-! ## What is expected -/

/-- The memory of an instance: zeros, and the data segments. -/
def memory : Blob :=
  (dataSegments m).foldl (fun memory segment => memory.write segment.1 segment.2) fun _ => 0

/-- An initializer with its relocations stored into it, one after the other. -/
def relocatedInit (g : Global) : Blob :=
  g.relocations.foldl (fun bytes r => bytes.store32 r.offset (relocValue m r))
    fun x => g.init.getD x 0

/-- The element of the table in the slot of a function is the function. -/
def SlotHolds (i : Nat) : Prop :=
  0 < tableSlot m i ∧ tableSlot m i < tableSize m ∧ ∃ index, (wasmIndex m)[i]? = some (some index) ∧
    (functionTable m).elements[tableSlot m i - 1]? = some index

/-- Globals have places of their own in a memory that can be instantiated, and their contents
    in it. -/
structure LayoutSound : Prop where
  aligned : ∀ i g, m.globalDefs[i]? = some g → max 1 g.align ∣ globalAddress m i
  behind : ∀ i g, m.globalDefs[i]? = some g → dataBase ≤ globalAddress m i
  apart : ∀ i j g h, i ≠ j → m.globalDefs[i]? = some g → m.globalDefs[j]? = some h →
    globalAddress m i + max 1 g.size ≤ globalAddress m j ∨
      globalAddress m j + max 1 h.size ≤ globalAddress m i
  stack : ∀ i g, m.globalDefs[i]? = some g →
    globalAddress m i + max 1 g.size ≤ stackBase m ∨ stackTop m ≤ globalAddress m i
  fits : ∀ i g, m.globalDefs[i]? = some g →
    globalAddress m i + max 1 g.size ≤ memoryMinPages m * pageSize
  instantiates : memoryMinPages m ≤ 65536 ∧ ∀ segment ∈ dataSegments m,
    segment.1 + segment.2.length ≤ memoryMinPages m * pageSize
  init : ∀ i g, m.globalDefs[i]? = some g → ∀ x < g.init.length,
    memory m (globalAddress m i + x) = relocatedInit m g x
  zero : ∀ i g, m.globalDefs[i]? = some g → g.init = [] → ∀ x < g.size,
    memory m (globalAddress m i + x) = 0
  field : ∀ i g before r after, m.globalDefs[i]? = some g → g.init ≠ [] →
    g.relocations = before ++ r :: after →
    (∀ s ∈ after, s.offset + 4 ≤ r.offset ∨ r.offset + 4 ≤ s.offset) →
    (memory m).load32 (globalAddress m i + r.offset) = relocValue m r
  slot : ∀ g ∈ m.globalDefs, ∀ r ∈ g.relocations, r.kind = .functionAddr → SlotHolds m r.target
  errors : slotErrors m = []

end Mirage.Wasm
