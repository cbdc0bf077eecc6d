import Mathlib.Data.Finset.Basic
import Mathlib.Data.List.Sort
import Mirage.Lib.Iterate
import Mirage.X86.Machine

/-!
# Linear-scan register allocation

The values of MIR are the virtual registers: `allocate` gives each of them a
physical register or an 8-byte area of the frame for its whole lifetime, in four
steps.

* `liveness`: block-local use and definition sets, iterated backwards over the
  control flow until nothing changes.
* `intervals`: for each value the single range of positions from the first to the
  last one at which it is live, read, written or passed. The instruction `i`, in
  layout order, owns the positions `4i` to `4i + 3` (`posE`, `posU`, `posD`,
  `posL`).
* `kills`: the positions at which an instruction template owns a register by name.
* `scan`: the intervals in order of their starts, each taking the first register
  that is not held by an interval still active and whose kill ranges it does not
  meet. A value live across calls may take a caller-saved register if its register
  is saved around them.

`machineVerify` checks the finished assignment again; what it finds are the errors of the
result.

Positions and area numbers are natural numbers; the source counts in `uint32_t`.
-/

namespace Mirage.X86

/-! ## Registers -/

/-- One namespace for both register classes. -/
inductive PhysReg
  | gpr (r : Reg)
  | xmm (x : XReg)
  deriving DecidableEq, Repr

instance : Inhabited PhysReg := ⟨.gpr .rax⟩

def PhysReg.isXmm : PhysReg → Bool
  | .gpr _ => false
  | .xmm _ => true

/-- The callee-saved registers under System V; every XMM register is caller-saved. -/
def PhysReg.isCalleeSaved : PhysReg → Bool
  | .gpr r => r = .rbx || r = .r12 || r = .r13 || r = .r14 || r = .r15
  | .xmm _ => false

def allRegs : List Reg :=
  [.rax, .rcx, .rdx, .rbx, .rsp, .rbp, .rsi, .rdi, .r8, .r9, .r10, .r11, .r12, .r13, .r14, .r15]

/-- The registers in the order of their numbers. -/
def allPhysRegs : List PhysReg := allRegs.map .gpr ++ (List.finRange 16).map .xmm

/-- The number of a register: the general ones from 0, the XMM ones from 16. -/
def PhysReg.number (r : PhysReg) : Nat := allPhysRegs.idxOf r

/-- The register named by a clobber family. -/
def familyReg (name : String) : Option PhysReg :=
  (([("rax", Reg.rax), ("rcx", .rcx), ("rdx", .rdx), ("rbx", .rbx), ("rsp", .rsp), ("rbp", .rbp),
    ("rsi", .rsi), ("rdi", .rdi), ("r8", .r8), ("r9", .r9), ("r10", .r10), ("r11", .r11),
    ("r12", .r12), ("r13", .r13), ("r14", .r14), ("r15", .r15)] : List (String × Reg)).lookup
    name).map .gpr

/-- The 64-bit name of a register that an asm block names, `eax` to `rax` and so
    on; a name that is not in the table stays as it is. -/
def asmResultFamily (reg : String) : String :=
  (([("rax", "rax"), ("eax", "rax"), ("ax", "rax"), ("al", "rax"),
    ("rcx", "rcx"), ("ecx", "rcx"), ("cx", "rcx"), ("cl", "rcx"),
    ("rdx", "rdx"), ("edx", "rdx"), ("dx", "rdx"), ("dl", "rdx"),
    ("rbx", "rbx"), ("ebx", "rbx"), ("bx", "rbx"), ("bl", "rbx"),
    ("rsi", "rsi"), ("esi", "rsi"), ("si", "rsi"), ("sil", "rsi"),
    ("rdi", "rdi"), ("edi", "rdi"), ("di", "rdi"), ("dil", "rdi"),
    ("r8", "r8"), ("r8d", "r8"), ("r9", "r9"), ("r9d", "r9"),
    ("r10", "r10"), ("r10d", "r10"), ("r11", "r11"), ("r11d", "r11"),
    ("r12", "r12"), ("r12d", "r12"), ("r13", "r13"), ("r13d", "r13"),
    ("r14", "r14"), ("r14d", "r14"), ("r15", "r15"), ("r15d", "r15")] :
    List (String × String)).lookup reg).getD reg

/-- The preference of intervals that cross no call. -/
def gprPreferScratchy : List PhysReg :=
  [Reg.r10, .r11, .rsi, .rdi, .r8, .r9, .rcx, .rdx, .rax, .rbx, .r12, .r13, .r14, .r15].map .gpr

/-- The preference of intervals that cross a call. -/
def gprPreferCallee : List PhysReg :=
  [Reg.rbx, .r12, .r13, .r14, .r15, .r10, .r11, .rsi, .rdi, .r8, .r9, .rcx, .rdx, .rax].map .gpr

def xmmOrder : List PhysReg :=
  [(2 : XReg), 3, 4, 5, 6, 7, 8, 9, 10, 11, 12, 13, 14, 15, 1, 0].map .xmm

/-! ## Positions and results -/

/-- Before anything of the instruction; kill ranges start here. -/
def posE (index : Nat) : Nat := index * 4

/-- Operand reads, and the results of straight-line ops. -/
def posU (index : Nat) : Nat := index * 4 + 1

/-- Straight-line kill ranges end here. -/
def posD (index : Nat) : Nat := index * 4 + 2

/-- Late writes: block arguments at a jump, results of calls. -/
def posL (index : Nat) : Nat := index * 4 + 3

inductive Mode
  | trivial | linear
  deriving DecidableEq

/-- Where a value lives for its whole lifetime. -/
structure Assignment where
  spilled : Bool := true
  reg : Option PhysReg := none
  saveAroundCalls : Bool := false
  spillIndex : Option Nat := none
  saveIndex : Option Nat := none
  deriving DecidableEq

/-- The positions of a value, ends included. -/
structure Interval where
  value : Nat
  start : Nat
  «end» : Nat
  isFloat : Bool
  crossesCall : Bool
  deriving DecidableEq

/-- The positions at which a template owns a register. -/
structure KillRange where
  fromPos : Nat
  toPos : Nat
  isCallClobber : Bool
  deriving DecidableEq

structure Allocation where
  values : ValueId → Assignment := fun _ => {}
  intervals : List Interval := []
  spillAreaCount : Nat := 0
  usedCalleeSaved : List Reg := []
  errors : List String := []

/-! ## Layout and kill ranges -/

/-- The instructions of a function in layout order. -/
def layout (fn : Function) : List Inst := fn.blocks.flatMap (·.insts)

/-- The indices of the first and the last instruction of a block. -/
structure BlockSpan where
  first : Nat
  last : Nat

/-- `index_blocks`, from the instruction `index` on. -/
def indexBlocks : Nat → List Block → List BlockSpan
  | _, [] => []
  | index, block :: blocks =>
    ⟨index, index + block.insts.length - 1⟩ :: indexBlocks (index + block.insts.length) blocks

/-- The operands an instruction reads. The allocator has its own copy of the walk
    over them, the same case by case. -/
def forEachUse (inst : Inst) : List ValueId := valueOperands inst

/-- The ops whose emission is a call. -/
def isCallLike (op : Op) : Bool :=
  op == .call || op == .callIndirect || op == .memCopy || op == .memSet || op == .frem

/-- A kill range for a register; the frame registers are never allocated. -/
def kill (reg : Option PhysReg) (range : KillRange) : List (PhysReg × KillRange) :=
  match reg with
  | none => []
  | some r => if r = .gpr .rsp ∨ r = .gpr .rbp then [] else [(r, range)]

/-- The families of the registers an asm block is known to use: its clobbers, its
    result, and every register it names. -/
def asmFamilies (block : AsmBlock) : List String :=
  block.clobberedFamilies ++
  (if block.resultRegister.isEmpty then [] else [asmResultFamily block.resultRegister]) ++
  block.instructions.flatMap fun instruction =>
    (instruction.operands.filter (·.kind == .register)).map (asmResultFamily ·.reg)

/-- The kill ranges of an instruction: what its template needs by name. -/
def instKills (module : Module) (inst : Inst) (index : Nat) : List (PhysReg × KillRange) :=
  let e := posE index
  let d := posD index
  let l := posL index
  match inst.op with
  | .sdiv | .udiv | .srem | .urem =>
    kill (some (.gpr .rax)) ⟨e, d, false⟩ ++ kill (some (.gpr .rdx)) ⟨e, d, false⟩
  | .shl | .lshr | .ashr => kill (some (.gpr .rcx)) ⟨e, d, false⟩
  | .stackAlloc => kill (some (.gpr .rax)) ⟨e, d, false⟩
  | .switch => kill (some (.gpr .rax)) ⟨e, l, false⟩ ++ kill (some (.gpr .rcx)) ⟨e, l, false⟩
  | .call | .callIndirect | .memCopy | .memSet | .frem =>
    callerSavedGprs.flatMap (fun r => kill (some (.gpr r)) ⟨e, d, true⟩) ++
    (List.finRange 16).flatMap (fun x => kill (some (.xmm x)) ⟨e, d, true⟩)
  | .asm =>
    (asmFamilies (module.asmBlocks.getD inst.a {})).flatMap fun family =>
      kill (familyReg family) ⟨e, l, false⟩
  | _ => []

/-- All kill ranges, in the order they are found. -/
def buildKills (module : Module) (fn : Function) : List (PhysReg × KillRange) :=
  (layout fn).zipIdx.flatMap fun (inst, index) => instKills module inst index

/-- The kill ranges of a register, sorted by their start. -/
def kills (module : Module) (fn : Function) (reg : PhysReg) : List KillRange :=
  (((buildKills module fn).filter (·.1 = reg)).map (·.2)).insertionSort
    fun k k' => k.fromPos ≤ k'.fromPos

/-- The instructions that are calls. -/
def callIndices (fn : Function) : List Nat :=
  ((layout fn).zipIdx.filter fun (inst, _) => isCallLike inst.op).map (·.2)

/-! ## Liveness -/

/-- The values a block reads before it defines them, and the ones it defines: the
    state of the walk over its instructions. -/
structure GenDef where
  gen : Finset ValueId
  defs : Finset ValueId

/-- One instruction of the walk. -/
def GenDef.inst (s : GenDef) (inst : Inst) : GenDef :=
  let gen := (forEachUse inst).foldl (fun gen v => if v ∈ s.defs then gen else insert v gen) s.gen
  ⟨gen, if inst.result ≠ noValue then insert inst.result s.defs else s.defs⟩

def genDef (block : Block) : GenDef :=
  block.insts.foldl GenDef.inst ⟨∅, block.params.toFinset⟩

/-- The live sets of all blocks. -/
structure LiveSets where
  liveIn : BlockId → Finset ValueId
  liveOut : BlockId → Finset ValueId

/-- The visit of one block: its live-out set grows by the live-in sets of its
    successors, then its live-in set by what the block reads or lets through. -/
def liveBlock (fn : Function) (s : LiveSets) (b : BlockId) : LiveSets × Bool :=
  let out := (fn.successors b).foldl (fun out succ => out ∪ s.liveIn succ) (s.liveOut b)
  let gd := genDef (fn.blocks.getD b {})
  let in' := s.liveIn b ∪ (gd.gen ∪ (out \ gd.defs))
  (⟨fun b' => if b' = b then in' else s.liveIn b', fun b' => if b' = b then out else s.liveOut b'⟩,
    decide (out ≠ s.liveOut b) || decide (in' ≠ s.liveIn b))

/-- One round over the given blocks, in order. -/
def liveRound (fn : Function) (blocks : List BlockId) (s : LiveSets) : LiveSets × Bool :=
  blocks.foldl (fun acc b => let r := liveBlock fn acc.1 b; (r.1, acc.2 || r.2)) (s, false)

/-- The values a function reads anywhere. -/
def usedValues (fn : Function) : Finset ValueId := ((layout fn).flatMap forEachUse).toFinset

/-- The live sets, by rounds over the blocks from the last to the first until
    nothing changes. A round that changes something adds one of the finitely many
    used values to a set, which bounds the number of rounds. -/
def liveness (fn : Function) : LiveSets :=
  whileChanged (liveRound fn (List.range fn.blocks.length).reverse)
    (2 * fn.blocks.length * (usedValues fn).card + 1) ⟨fun _ => ∅, fun _ => ∅⟩

/-! ## Intervals -/

/-- A call of `extend`: a value and a position. -/
abbrev Extension := ValueId × Nat

/-- The positions recorded for an instruction. -/
def instExtensions (fn : Function) (inst : Inst) (index : Nat) : List Extension :=
  (forEachUse inst).map (fun v => (v, posU index)) ++
  (if inst.result ≠ noValue then
    [(inst.result, if isCallLike inst.op || inst.op == .asm then posL index else posU index)]
  else []) ++
  -- a jump writes the parameters of its target at its late position
  (if inst.op == .jump then
    (fn.blocks.getD inst.a {}).params.map fun param => (param, posL index)
  else [])

/-- The positions recorded for a block. Only a value that lives through the block
    stretches back to its start. -/
def blockExtensions (fn : Function) (live : LiveSets) (b : BlockId) (block : Block)
    (span : BlockSpan) : List Extension :=
  let values := List.range fn.values.length
  (values.filter (· ∈ live.liveIn b)).map (fun v => (v, posE span.first)) ++
  (values.filter (· ∈ live.liveOut b)).flatMap (fun v =>
    (if v ∉ (genDef block).defs then [(v, posE span.first)] else []) ++ [(v, posL span.last)]) ++
  block.params.map (fun param => (param, posE span.first)) ++
  (block.insts.zipIdx span.first).flatMap fun (inst, index) => instExtensions fn inst index

/-- All recorded positions. -/
def extensions (fn : Function) : List Extension :=
  let live := liveness fn
  ((fn.blocks.zip (indexBlocks 0 fn.blocks)).zipIdx).flatMap fun ((block, span), b) =>
    blockExtensions fn live b block span

/-- The start and the end of each value so far. -/
abbrev Extents := ValueId → Option (Nat × Nat)

def extend (ext : Extents) (e : Extension) : Extents := fun v =>
  if v = e.1 then
    match ext v with
    | none => some (e.2, e.2)
    | some (s, t) => some (min s e.2, max t e.2)
  else ext v

/-- The interval is live strictly across the call at an instruction. -/
def crosses (interval : Interval) (index : Nat) : Bool :=
  interval.start < posU index && interval.end > posL index

/-- The interval of a value with the given extent. -/
def mkInterval (fn : Function) (v : ValueId) (s t : Nat) : Interval :=
  { value := v, start := s, «end» := t, isFloat := isFloat (fn.valueType v)
    crossesCall := (callIndices fn).any fun call => s < posU call && t > posL call }

/-- The intervals of the values that have a position, by start and then by value. -/
def buildIntervals (fn : Function) : List Interval :=
  let ext := (extensions fn).foldl extend (fun _ => none)
  ((List.range fn.values.length).filterMap fun v =>
    (ext v).map fun (s, t) => mkInterval fn v s t).insertionSort fun a b =>
      a.start < b.start ∨ (a.start = b.start ∧ a.value ≤ b.value)

/-! ## The scan -/

/-- Walking the kill ranges of a register: `none` when an overlap rules the
    register out, else whether its value must be saved around calls. -/
def overlappingKillOk (interval : Interval) (reg : PhysReg) : List KillRange → Bool → Option Bool
  | [], needsSave => some needsSave
  | k :: rest, needsSave =>
    if k.fromPos > interval.end then some needsSave
    else if k.toPos < interval.start then overlappingKillOk interval reg rest needsSave
    else if k.isCallClobber && !reg.isCalleeSaved && crosses interval (k.fromPos / 4) then
      overlappingKillOk interval reg rest true
    else none

/-- The register order an interval tries. -/
def registerOrder (interval : Interval) : List PhysReg :=
  if interval.isFloat then xmmOrder
  else if interval.crossesCall then gprPreferCallee
  else gprPreferScratchy

/-- An interval that holds a register. -/
structure Active where
  «end» : Nat
  reg : PhysReg
  deriving DecidableEq

/-- The first register of the order that is free and not killed; in the first
    pass, without a save. -/
def tryPass (kills : PhysReg → List KillRange) (active : List Active) (interval : Interval)
    (allowSave : Bool) : List PhysReg → Option (PhysReg × Bool)
  | [] => none
  | reg :: rest =>
    if active.any (·.reg = reg) then tryPass kills active interval allowSave rest
    else match overlappingKillOk interval reg (kills reg) false with
      | none => tryPass kills active interval allowSave rest
      | some needsSave =>
        if needsSave && !allowSave then tryPass kills active interval allowSave rest
        else some (reg, needsSave)

/-- The register of an interval, and whether it is saved around calls: in two passes. -/
def choose (kills : PhysReg → List KillRange) (active : List Active) (interval : Interval) :
    Option (PhysReg × Bool) :=
  (tryPass kills active interval false (registerOrder interval)).or
    (tryPass kills active interval true (registerOrder interval))

/-- The state of the scan. -/
structure ScanState where
  values : ValueId → Assignment := fun _ => {}
  spillAreaCount : Nat := 0
  usedCalleeSaved : List Reg := []
  active : List Active := []

def ScanState.assign (s : ScanState) (v : ValueId) (a : Assignment) : ScanState :=
  { s with values := fun v' => if v' = v then a else s.values v' }

/-- Spill a value to a fresh area. -/
def ScanState.spill (s : ScanState) (v : ValueId) : ScanState :=
  { s.assign v { spilled := true, spillIndex := some s.spillAreaCount } with
    spillAreaCount := s.spillAreaCount + 1 }

/-- Give a value a register, with a fresh save area if it needs one. -/
def ScanState.take (s : ScanState) (interval : Interval) (reg : PhysReg) (needsSave : Bool) :
    ScanState :=
  { values := fun v' => if v' = interval.value then
        { spilled := false, reg := some reg, saveAroundCalls := needsSave
          saveIndex := if needsSave then some s.spillAreaCount else none }
      else s.values v'
    spillAreaCount := if needsSave then s.spillAreaCount + 1 else s.spillAreaCount
    usedCalleeSaved := match reg with
      | .gpr r => if reg.isCalleeSaved then r :: s.usedCalleeSaved else s.usedCalleeSaved
      | .xmm _ => s.usedCalleeSaved
    active := s.active ++ [⟨interval.end, reg⟩] }

/-- One interval of the linear scan. -/
def scanStep (kills : PhysReg → List KillRange) (s : ScanState) (interval : Interval) : ScanState :=
  let s := { s with active := s.active.filter fun a => ¬a.end < interval.start }
  match choose kills s.active interval with
  | none => s.spill interval.value
  | some (reg, needsSave) => s.take interval reg needsSave

def scan (kills : PhysReg → List KillRange) (mode : Mode) (intervals : List Interval) : ScanState :=
  match mode with
  | .trivial => intervals.foldl (fun s interval => s.spill interval.value) {}
  | .linear => intervals.foldl (scanStep kills) {}

/-! ## The machine verifier -/

/-- Two intervals next to each other in one register that overlap. -/
def checkNeighbours (name : String) (reg : PhysReg) : List Interval → List String
  | a :: b :: rest =>
    (if a.end ≥ b.start then
      [s!"register interference in '{name}': v{a.value} [{a.start},{a.end}] and v{b.value} [{b.start},{b.end}] both in r{reg.number}"]
    else []) ++ checkNeighbours name reg (b :: rest)
  | _ => []

/-- The kill ranges of its register an interval overlaps without being saved. -/
def checkKills (name : String) (reg : PhysReg) (interval : Interval) (assignment : Assignment) :
    List KillRange → List String
  | [] => []
  | k :: rest =>
    if k.fromPos > interval.end then []
    else if k.toPos < interval.start then checkKills name reg interval assignment rest
    else
      (if k.isCallClobber && assignment.saveAroundCalls && crosses interval (k.fromPos / 4) then []
      else
        [s!"kill-range violation in '{name}': v{interval.value} [{interval.start},{interval.end}] in r{reg.number} across [{k.fromPos},{k.toPos}]"]) ++
      checkKills name reg interval assignment rest

/-- The findings of the verifier on a finished assignment. -/
def machineVerify (name : String) (kills : PhysReg → List KillRange) (intervals : List Interval)
    (values : ValueId → Assignment) : List String :=
  (intervals.flatMap fun interval =>
    if (values interval.value).spilled && (values interval.value).spillIndex.isNone then
      [s!"value v{interval.value} spilled without a spill area in '{name}'"] else []) ++
  allPhysRegs.flatMap fun reg =>
    let list := (intervals.filter fun interval =>
      !(values interval.value).spilled && (values interval.value).reg = some reg).insertionSort
        fun a b => a.start ≤ b.start
    checkNeighbours name reg list ++
    list.flatMap fun interval =>
      checkKills name reg interval (values interval.value) (kills reg)

/-- Register allocation of a function. -/
def allocate (module : Module) (fn : Function) (mode : Mode) : Allocation :=
  let kills := kills module fn
  let intervals := buildIntervals fn
  let s := scan kills mode intervals
  { values := s.values
    intervals := intervals
    spillAreaCount := s.spillAreaCount
    usedCalleeSaved := s.usedCalleeSaved
    errors := match mode with
      | .trivial => []
      | .linear => machineVerify fn.name kills intervals s.values }

end Mirage.X86
