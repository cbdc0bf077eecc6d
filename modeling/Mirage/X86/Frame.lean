import Mirage.X86.Regalloc

/-!
# The frame and the sweep

What the templates of the emitter share: where the allocator put a value
(`Ctx.inReg`, `Ctx.valGpr`, `Ctx.valOff`), the layout of the frame, and the
dynamic scratch registers.

* The frame holds, downwards from the frame pointer: the callee-saved registers in
  use, the slots of the function, the areas of the allocator, a staging cell for
  every block parameter, and the cells of the C ABI (`Ctx.cells`). `placeCells`
  gives each cell its offset.
* `sweepTo` is the sweep over the intervals along with the emission: the intervals
  active at an instruction are the ones that meet its positions. A register is
  occupied when an active value is in it or it is leased already.
* `leaseGpr` and `leaseXmm` find a scratch register: one that is not occupied, or
  else a victim, saved on the stack until the release.
-/

namespace Mirage.X86

/-- What the emission of a function reads. -/
structure Ctx where
  module : Module
  fn : Function
  ra : Allocation

/-- The width of a type in a register or a memory access. -/
def widthOf : Ty → Width
  | .i1 | .i8 => .w8
  | .i16 => .w16
  | .i32 | .f32 => .w32
  | _ => .w64

/-- A register number read as a general register: only the low four bits are encoded. -/
def greg : PhysReg → Reg
  | .gpr r => r
  | .xmm x => Reg.ofFin x

/-- A register number read as an XMM register. -/
def xreg : PhysReg → XReg
  | .gpr r => Fin.ofNat 16 (PhysReg.gpr r).number
  | .xmm x => x

namespace Ctx

variable (c : Ctx)

/-! ## Assignments -/

def assignment (v : ValueId) : Assignment := c.ra.values v

def inReg (v : ValueId) : Bool := !(c.assignment v).spilled

def valGpr (v : ValueId) : Reg := greg ((c.assignment v).reg.getD (.gpr .r15))

def valXmm (v : ValueId) : XReg := xreg ((c.assignment v).reg.getD (.xmm 15))

def isDouble (v : ValueId) : Bool := c.fn.valueType v == .f64

/-- The registers the given values are assigned to. -/
def excl (values : List ValueId) : List PhysReg :=
  values.filterMap fun v => if v ≠ noValue ∧ c.inReg v then (c.assignment v).reg else none

/-! ## The layout of the frame -/

/-- What a cell of the frame is for. -/
inductive CellKey
  | calleeSave (r : Reg)
  | slot (i : Nat)
  | area (k : Nat)
  | staging (param : ValueId)
  | cretStash
  | cretBlobTop
  | cretBlob
  | sretStash
  deriving DecidableEq

structure Cell where
  key : CellKey
  size : Int := 8
  align : Int := 1

def calleeSavedRegs : List Reg := [.rbx, .r12, .r13, .r14, .r15]

/-- The signature of the callee of a call. -/
def calleeSignature (inst : Inst) : Signature :=
  let signature := if inst.op == .callIndirect then inst.b
    else (c.module.functions.getD inst.a {}).signature
  c.module.signatures.getD signature {}

/-- The signature of the function itself. -/
def ownSig : Signature := c.module.signatures.getD c.fn.signature {}

/-- Some call of the function returns two words. -/
def callsTwoWordRet : Bool :=
  c.fn.blocks.any fun block => block.insts.any fun inst =>
    (inst.op == .call || inst.op == .callIndirect) && (c.calleeSignature inst).cRetWords == 2

/-- The cells of the frame, in the order they are placed. -/
def cells : List Cell :=
  (calleeSavedRegs.filter (· ∈ c.ra.usedCalleeSaved)).map (fun r => { key := .calleeSave r }) ++
  c.fn.slots.zipIdx.map (fun (slot, i) =>
    { key := .slot i
      size := max 1 (BitVec.ofNat 32 slot.size).toInt
      align := max 1 (BitVec.ofNat 32 slot.align).toInt }) ++
  (List.range c.ra.spillAreaCount).map (fun k => { key := .area k }) ++
  c.fn.blocks.flatMap (fun block => block.params.map fun param => { key := .staging param }) ++
  (if c.callsTwoWordRet then [{ key := .cretStash }] else []) ++
  (if c.ownSig.cRetWords == 2 then [{ key := .cretBlobTop }, { key := .cretBlob }] else []) ++
  (if c.ownSig.cSret then [{ key := .sretStash }] else [])

/-- The extent of the frame after one more cell. -/
def placeCell (offset : Int) (cell : Cell) : Int :=
  (offset + cell.size + cell.align - 1).tdiv cell.align * cell.align

/-- The offsets of cells placed one after the other. -/
def placeCells : Int → List Cell → List (CellKey × Int)
  | _, [] => []
  | offset, cell :: cells =>
    (cell.key, -placeCell offset cell) :: placeCells (placeCell offset cell) cells

/-- The offset of a cell from the frame pointer; 0 for a cell the frame has not. -/
def offsetOf (key : CellKey) : Int :=
  (((placeCells 0 c.cells).filter (·.1 = key)).getLast?.map (·.2)).getD 0

/-- The size of the frame, a multiple of 16. -/
def frameSize : Int := ((c.cells.foldl placeCell 0) + 15).tdiv 16 * 16

/-- The home of a spilled value. -/
def valOff (v : ValueId) : Int := c.offsetOf (.area ((c.assignment v).spillIndex.getD 4294967295))

/-- The save area of a value saved around calls. -/
def saveOff (v : ValueId) : Int := c.offsetOf (.area ((c.assignment v).saveIndex.getD 4294967295))

/-! ## The sweep -/

/-- The active intervals, and the ones still to come. -/
structure Sweep where
  active : List Interval
  rest : List Interval

/-- The sweep, moved on to an instruction. -/
def advanceTo (s : Sweep) (index : Nat) : Sweep :=
  { active := s.active.filter (fun i => ¬i.end < posE index) ++
      (s.rest.takeWhile fun i => i.start ≤ posL index).filter fun i => c.inReg i.value
    rest := s.rest.dropWhile fun i => i.start ≤ posL index }

/-- The sweep at an instruction, after all the ones before it. -/
def sweepTo : Nat → Sweep
  | 0 => c.advanceTo ⟨[], c.ra.intervals⟩ 0
  | index + 1 => c.advanceTo (sweepTo index) (index + 1)

/-- The intervals active at an instruction. -/
def active (index : Nat) : List Interval := (c.sweepTo index).active

/-- The registers of the active intervals. -/
def occupied (index : Nat) : List PhysReg :=
  (c.active index).filterMap fun i => (c.assignment i.value).reg

end Ctx

/-! ## Dynamic scratch -/

/-- A leased general register; a pushed one is a victim, restored on release. -/
structure Lease where
  reg : Reg
  pushed : Bool
  held : Bool
  deriving DecidableEq

def gprCandidates : List Reg :=
  [.r10, .r11, .rax, .rcx, .rdx, .rsi, .rdi, .r8, .r9, .rbx, .r12, .r13, .r14, .r15]

/-- A scratch register that is not excluded: one that is not occupied, else the
    first one. When all are excluded the source reports an internal error. -/
def leaseGpr (occupied exclude : List PhysReg) : Lease :=
  match gprCandidates.find? fun r => .gpr r ∉ exclude ∧ .gpr r ∉ occupied with
  | some r => ⟨r, false, true⟩
  | none =>
    match gprCandidates.find? fun r => .gpr r ∉ exclude with
    | some r => ⟨r, true, true⟩
    | none => ⟨.rax, false, false⟩

def Lease.acquire (l : Lease) : List Instr := if l.pushed then [.pushR l.reg] else []

def Lease.release (l : Lease) : List Instr := if l.held && l.pushed then [.popR l.reg] else []

/-- A leased XMM register; a victim is parked in a fresh stack cell. -/
structure XLease where
  reg : XReg
  saved : Bool
  held : Bool
  deriving DecidableEq

def xmmCandidates : List XReg := [15, 14, 13, 12, 11, 10, 9, 8, 7, 6, 5, 4, 3, 2, 1, 0]

def leaseXmm (occupied exclude : List PhysReg) : XLease :=
  match xmmCandidates.find? fun x => .xmm x ∉ exclude ∧ .xmm x ∉ occupied with
  | some x => ⟨x, false, true⟩
  | none =>
    match xmmCandidates.find? fun x => .xmm x ∉ exclude with
    | some x => ⟨x, true, true⟩
    | none => ⟨0, false, false⟩

def XLease.acquire (l : XLease) : List Instr :=
  if l.saved then [.subRsp 16, .movsdStore .rsp 0 l.reg] else []

def XLease.release (l : XLease) : List Instr :=
  if l.held && l.saved then [.movsdLoad l.reg .rsp 0, .addRsp 16] else []

/-- No lease: the register is one a value is assigned to. -/
def Lease.none : Lease := ⟨.rax, false, false⟩

def XLease.none : XLease := ⟨0, false, false⟩

/-- The registers a held lease occupies. -/
def Lease.mask (l : Lease) : List PhysReg := if l.held then [.gpr l.reg] else []

def XLease.mask (l : XLease) : List PhysReg := if l.held then [.xmm l.reg] else []

end Mirage.X86
