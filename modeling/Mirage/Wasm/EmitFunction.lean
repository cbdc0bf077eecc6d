import Mirage.Lib.Align
import Mirage.Wasm.Activation
import Mirage.Wasm.BuildCfg

/-!
# The code of a function

What `emit` writes for a function. Three things move the shadow-stack pointer: the prologue,
which keeps its value in a local and puts the frame of the slots below it (`prologue`); a
`stackalloc`, which takes its block below whatever was taken before; and a C-variadic call,
which keeps the pointer in another local, spills its tail to a buffer below it, and puts it back
behind the call (`emitCall`). A `return` of a function with a frame puts the value of the
prologue back.

The code of the other instructions is the integer lowering, with the locals by their index, or
else a few instructions each (`emitOrdinary`). Around them stands the control flow of one of
three forms: straight-line for one block, the dispatch loop, or the structured form, which
follows the dominator tree (`doTree`). The result is `none` where the backend reports an error
or a lookup throws, and where the steps it is given do not suffice. Sizes and offsets are
exact numbers.
-/

namespace Mirage.Wasm.ShadowStack

/-- What the emission reads besides the function: the module, the addresses of the globals, and
    the places of functions in the table. In an object these are what the linker
    puts there. -/
structure Context where
  module : Module
  globalAddress : Nat → BitVec 32
  tableSlot : Nat → Option (BitVec 32)

/-! ## The frame -/

/-- A slot in the frame: it has at least one byte, and an alignment of at least one. -/
def slotExtent (slot : Slot) : Extent where
  size := max 1 slot.size
  align := max 1 slot.align
  align_pos := Nat.lt_of_lt_of_le Nat.one_pos (Nat.le_max_left 1 slot.align)

/-- `slot_offset`. -/
def slotOffsets (fn : Function) : List Nat := starts 0 (fn.slots.map slotExtent)

/-- `frame_local`. -/
def frameLocal (fn : Function) : Nat := savedSpLocal fn + 1

/-- `va_saved_local`, behind the locals for the frame. -/
def vaSavedLocal (fn : Function) : Nat := fn.params.length + if needsFrame fn then 2 else 0

/-- `va_base_local`. -/
def vaBaseLocal (fn : Function) : Nat := vaSavedLocal fn + 1

/-- The stack pointer is kept in a local, and moved below the frame. -/
def prologue (fn : Function) : List Plain :=
  if needsFrame fn then
    [.spGet, .localTee (savedSpLocal fn), .op (.i32Const (BitVec.ofNat 32 (frameSize fn))),
      .op (.i32Op .sub), .localTee (frameLocal fn), .spSet]
  else []

/-! ## Instructions -/

section

variable (ctx : Context) (fn : Function) (l : Locals)

/-- An instruction with the locals by their index. -/
def byIndex : Instr → Instr
  | .localGet v => .localGet (l.index (.home v))
  | .localSet v => .localSet (l.index (.home v))
  | i => i

def ops (code : List Instr) : List Plain := code.map fun i => .op (byIndex l i)

def get (v : ValueId) : Plain := .op (.localGet (l.index (.home v)))

def set (v : ValueId) : Plain := .op (.localSet (l.index (.home v)))

/-- A value as an address or a byte count. -/
def pushAddress (v : ValueId) : List Plain :=
  get l v :: if fn.valueType v = .i64 then [.op .i32WrapI64] else []

/-- The width of a type in memory; zero for floats, which have one only. -/
def memoryBits : Ty → Nat
  | .f32 | .f64 => 0
  | .i64 => 64
  | .i16 => 16
  | .i1 | .i8 => 8
  | _ => 32

/-- The pattern of an integer constant that is not of 64 bits. -/
def narrowConst (inst : Inst) : BitVec 32 :=
  let bits := typeBits inst.type ctx.module.pointerBits
  (if bits ≠ 0 ∧ bits < 64 then inst.imm &&& (1 <<< bits - 1) else inst.imm).setWidth 32

/-- The code of a slot's address. -/
def slotAddrCode (inst : Inst) (offset : Nat) : List Plain :=
  [.op (.localGet (frameLocal fn)), .op (.i32Const (BitVec.ofNat 32 offset)), .op (.i32Op .add),
    set l inst.result]

/-- The code of a `stackalloc`: the block is put below the stack pointer, at a multiple of 16. -/
def stackAllocCode (inst : Inst) : List Plain :=
  .spGet :: pushAddress fn l inst.a ++ [.op (.i32Op .sub), .op (.i32Const (-16)), .op (.i32Op .and),
    .localTee (l.index (.home inst.result)), .spSet]

/-- A comparison of floats. -/
def fcmpInstr (op : Op) (dbl : Bool) : FloatInstr :=
  match op with
  | .fcmpOeq => .eq dbl
  | .fcmpOlt => .lt dbl
  | .fcmpOle => .le dbl
  | .fcmpOgt => .gt dbl
  | _ => .ge dbl

/-- A reinterpretation between floats and integers of the same width; nothing otherwise. -/
def bitcastCode (source target : Ty) : List Plain :=
  if source = .f32 ∧ valType target = .i32 then [.float (.reinterpret .f32 .i32)]
  else if source = .f64 ∧ target = .i64 then [.float (.reinterpret .f64 .i64)]
  else if valType source = .i32 ∧ target = .f32 then [.float (.reinterpret .i32 .f32)]
  else if source = .i64 ∧ target = .f64 then [.float (.reinterpret .i64 .f64)]
  else []

/-! ## Calls -/

/-- A value in the buffer of a variadic tail: four bytes, or eight that are aligned. -/
def cell (type : Ty) : Extent :=
  if type = .i64 ∨ type = .f64 ∨ type = .f32 then ⟨8, 8, by decide⟩ else ⟨4, 1, by decide⟩

/-- An argument is stored at its offset in the buffer; an `f32` as an `f64`. -/
def spillArg (arg : ValueId) (offset : Nat) : List Plain :=
  .op (.localGet (vaBaseLocal fn)) :: get l arg ::
  match fn.valueType arg with
  | .f32 => [.float .promote, .store .f64 64 offset]
  | .f64 => [.store .f64 64 offset]
  | .i64 => [.store .i64 64 offset]
  | _ => [.store .i32 32 offset]

/-- The stack pointer is kept in a local, and moved below the buffer. -/
def openBuffer (size : Nat) : List Plain :=
  [.spGet, .op (.localSet (vaSavedLocal fn)), .spGet, .op (.i32Const (BitVec.ofNat 32 size)),
    .op (.i32Op .sub), .localTee (vaBaseLocal fn), .spSet]

/-- The buffer, with the tail in it. -/
def spillTail (tail : List ValueId) : List Plain :=
  let cells := tail.map fun arg => cell (fn.valueType arg)
  openBuffer fn (roundUp (ends 0 cells) 16) ++
    (tail.zip (starts 0 cells)).flatMap fun (arg, offset) => spillArg fn l arg offset

/-- The stack pointer is what it was before the buffer. -/
def closeBuffer : List Plain := [.op (.localGet (vaSavedLocal fn)), .spSet]

/-- Between the two classes of integers, when they differ. -/
def coerce (source target : Ty) : List Plain :=
  if isI64Class source && !isI64Class target then [.op .i32WrapI64]
  else if !isI64Class source && isI64Class target then [.op .i64ExtendI32U]
  else []

/-- The type that is expected of an argument. -/
def declaredParam (inst : Inst) (indirect : Bool) (sig : Signature) (i : Nat) (arg : ValueId) :
    Ty :=
  let callee := ctx.module.functions.getD inst.a {}
  if !indirect && callee.hasBody then
    if i < callee.params.length then
      if callee.values.isEmpty then fn.valueType arg else callee.valueType (callee.params.getD i 0)
    else fn.valueType arg
  else sig.params.getD i (fn.valueType arg)

/-- What is done with the result of a call. -/
def takeResult (inst : Inst) (sig : Signature) : List Plain :=
  if inst.result ≠ noValue then
    coerce sig.result inst.type ++ (maskNarrow inst.type).map .op ++ [set l inst.result]
  else if sig.result ≠ .void then [.drop]
  else []

/-- The signature of what is called. -/
def calledSignature (inst : Inst) (indirect : Bool) : Nat :=
  if indirect then inst.b else (ctx.module.functions.getD inst.a {}).signature

/-- The call takes its tail by a buffer: it is of a variadic function without a body here. -/
def isCVariadic (inst : Inst) (indirect : Bool) : Bool :=
  (ctx.module.signatures.getD (calledSignature ctx inst indirect) {}).isVariadic &&
    (indirect || !(ctx.module.functions.getD inst.a {}).hasBody)

/-- The arguments that are passed as such, and the call. -/
def passAndCall (inst : Inst) (indirect : Bool) : List Plain :=
  let signature := calledSignature ctx inst indirect
  let sig := ctx.module.signatures.getD signature {}
  let cVariadic := isCVariadic ctx inst indirect
  let fixed := if cVariadic then sig.params.length else inst.args.length
  ((inst.args.take fixed).zipIdx.flatMap fun (arg, i) =>
    get l arg :: coerce (fn.valueType arg) (declaredParam ctx fn inst indirect sig i arg)) ++
  (if cVariadic then [.op (.localGet (vaBaseLocal fn))] else []) ++
  (if indirect then [get l inst.a, .callIndirect signature] else [.call (.function inst.a)]) ++
  takeResult l inst sig

def emitCall (inst : Inst) (indirect : Bool) : List Plain :=
  let sig := ctx.module.signatures.getD (calledSignature ctx inst indirect) {}
  if isCVariadic ctx inst indirect then
    spillTail fn l (inst.args.drop sig.params.length) ++ passAndCall ctx fn l inst indirect ++
      closeBuffer fn
  else passAndCall ctx fn l inst indirect

/-- The code of an instruction other than a terminator. -/
def emitOrdinary (inst : Inst) : Option (List Plain) :=
  let dbl := inst.type == .f64
  let arith := fun i : FloatInstr => some [get l inst.a, get l inst.b, .float i, set l inst.result]
  let fcmp := some [get l inst.a, get l inst.b,
    .float (fcmpInstr inst.op (fn.valueType inst.a == .f64)), set l inst.result]
  match inst.op with
  | .constInt =>
    some [.op (if isI64Class inst.type then .i64Const inst.imm
      else .i32Const (narrowConst ctx inst)), set l inst.result]
  | .constFloat =>
    some [if dbl then .f64Const inst.imm else .f32Const (inst.imm.setWidth 32), set l inst.result]
  | .constNull => some [.op (.i32Const 0), set l inst.result]
  | .globalAddr => some [.op (.i32Const (ctx.globalAddress inst.a)), set l inst.result]
  | .funcAddr => (ctx.tableSlot inst.a).map fun slot => [.op (.i32Const slot), set l inst.result]
  | .slotAddr => (slotOffsets fn)[inst.a]?.map (slotAddrCode fn l inst)
  | .stackAlloc => some (stackAllocCode fn l inst)
  | .load =>
    some [get l inst.a, .load (valType inst.type) (memoryBits inst.type), set l inst.result]
  | .store =>
    let type := fn.valueType inst.b
    some [get l inst.a, get l inst.b, .store (valType type) (memoryBits type) 0]
  | .memCopy => some (get l inst.a :: get l inst.b :: pushAddress fn l inst.c ++ [.memoryCopy])
  | .memSet => some (get l inst.a :: get l inst.b :: pushAddress fn l inst.c ++ [.memoryFill])
  | .ptrAddConst =>
    some [get l inst.a, .op (.i32Const (inst.imm.setWidth 32)), .op (.i32Op .add),
      set l inst.result]
  | .ptrAdd =>
    some (get l inst.a :: pushAddress fn l inst.b ++ [.op (.i32Op .add), set l inst.result])
  | .fadd => arith (.add dbl)
  | .fsub => arith (.sub dbl)
  | .fmul => arith (.mul dbl)
  | .fdiv => arith (.div dbl)
  | .frem => some [get l inst.a, get l inst.b, .call (.fmod dbl), set l inst.result]
  | .fneg => some [get l inst.a, .float (.neg dbl), set l inst.result]
  | .fcmpOne =>
    -- `ne` holds of unordered operands: less or greater
    let wide := fn.valueType inst.a == .f64
    some [get l inst.a, get l inst.b, .float (.lt wide), get l inst.a, get l inst.b,
      .float (.gt wide), .op (.i32Op .or), set l inst.result]
  | .fcmpOeq | .fcmpOlt | .fcmpOle | .fcmpOgt | .fcmpOge => fcmp
  | .fptrunc | .fpext =>
    some [get l inst.a, .float (if dbl then .promote else .demote), set l inst.result]
  | .sitofp =>
    some (ops l (pushSigned64 fn inst.a) ++ [.float (.convertI64 dbl true), set l inst.result])
  | .uitofp =>
    some (ops l (pushUnsigned64 fn inst.a) ++ [.float (.convertI64 dbl false), set l inst.result])
  | .fptosi | .fptoui =>
    some ([get l inst.a,
      .float (.truncSat (fn.valueType inst.a == .f64) (inst.op == .fptosi))] ++
      (if isI64Class inst.type then [] else .op .i32WrapI64 :: (maskNarrow inst.type).map .op) ++
      [set l inst.result])
  | .bitcast =>
    some (get l inst.a :: bitcastCode (fn.valueType inst.a) inst.type ++ [set l inst.result])
  | .call => some (emitCall ctx fn l inst false)
  | .callIndirect => some (emitCall ctx fn l inst true)
  -- inline asm is an error; the terminators are none of these instructions
  | .asm | .jump | .branch | .switch | .ret | .unreachable => none
  -- these two are conversions as `zext` is one
  | .ptrToInt | .intToPtr => some (ops l (emitInt fn { inst with op := .zext }))
  | _ => some (ops l (emitInt fn inst))

/-! ## Control -/

mutual

/-- Code for control, with the code of the instructions in it. -/
def expand : Ctrl → Option Body
  | .other inst => (emitOrdinary ctx fn l inst).map (.ofInst inst)
  | .op i => some (.plain (.op i))
  | .globalSetSp => some (.plain .spSet)
  | .br depth => some (.br depth)
  | .brTable depths default => some (.brTable depths default)
  | .ifVoid body => (expandAll body).map fun body => .ifElse body []
  | .block body => (expandAll body).map .block
  | .loop body => (expandAll body).map .loop
  | .ret => some .ret
  | .unreachable => some .unreachable

def expandAll : List Ctrl → Option (List Body)
  | [] => some []
  | c :: rest => (expand c).bind fun c => (expandAll rest).map (c :: ·)

end

attribute [grind =] expand expandAll

/-- One instruction; the terminators are those of the dispatch loop. -/
def emitInst (block : BlockId) (inst : Inst) : Option (List Body) :=
  (Wasm.emitInst ctx.module fn l block inst).bind (expandAll ctx fn l)

end

/-! ## The structured form -/

section

variable (tree : List NestEntry → BlockId → Option (List Body))

mutual

/-- Structured code, with the code of the trees in it. -/
def inTree : Code → List NestEntry → Option (List Body)
  | .op i, _ => some [.plain (.op i)]
  | .br depth, _ => some [.br depth]
  | .tree b, nest => tree nest b
  | .ifVoid body, nest =>
    (inTrees body (⟨.cond, noValue⟩ :: nest)).map fun body => [.ifElse body []]

def inTrees : List Code → List NestEntry → Option (List Body)
  | [], _ => some []
  | c :: rest, nest => (inTree c nest).bind fun code => (inTrees rest nest).map (code ++ ·)

end

attribute [grind =] inTree inTrees

variable (ctx : Context) (fn : Function) (l : Locals) (cfg : Analysis)

/-- What `do_branch` reads of the analysis. -/
def branchCfg : Cfg where
  rpoIndex b := (cfg.rpoIndex b).getD 4294967295
  isMerge := cfg.isMerge

/-- `do_branch`. -/
def enter (nest : List NestEntry) (src dst : BlockId) : Option (List Body) :=
  (doBranch (branchCfg cfg) nest src dst).bind fun code => inTrees tree code nest

/-- `emit_structured_terminator`. -/
def emitTerminator (nest : List NestEntry) (block : BlockId) (inst : Inst) : Option (List Body) :=
  match inst.op with
  | .jump => do
    let code ← transferBlockArgs fn l inst.a inst.args
    let next ← enter tree cfg nest block inst.a
    some (code.map (fun i => .plain (.op i)) ++ next)
  | .branch => do
    let yes ← enter tree cfg (⟨.cond, noValue⟩ :: nest) block inst.b
    let no ← enter tree cfg (⟨.cond, noValue⟩ :: nest) block inst.c
    some [.plain (get l inst.a), .ifElse yes no]
  | .switch => do
    let cases ← structuredCases (branchCfg cfg) nest block (isI64Class (fn.valueType inst.a))
      (l.index (.home inst.a)) inst.args
    let cases ← inTrees tree cases nest
    let last ← enter tree cfg nest block inst.b
    some (cases ++ last)
  | _ => emitInst ctx fn l block inst

/-- `emit_block_code`. -/
def emitBlockCode (nest : List NestEntry) (block : BlockId) : Option (List Body) := do
  let insts := (fn.blocks.getD block {}).insts
  let code ← insts.dropLast.mapM (emitInst ctx fn l block)
  let last ← (insts.getLast?.map (emitTerminator tree ctx fn l cfg nest block)).getD (some [])
  some (code.flatten ++ last)

/-- `node_within`: a block around the code for each of the first merge nodes below `x`, with
    the tree of the node behind its end. -/
def nodeWithin (x : BlockId) : List NestEntry → Nat → Option (List Body)
  | nest, 0 => emitBlockCode tree ctx fn l cfg nest x
  | nest, count + 1 => do
    let child ← (cfg.mergeChildren x)[count]?
    let inner ← nodeWithin x (⟨.block, child⟩ :: nest) count
    let after ← tree nest child
    some (.block inner :: after)

end

section

variable (ctx : Context) (fn : Function)

/-- `do_tree`, the code of the dominator tree under a block; the labels in scope are the
    `nest`. -/
def doTree (l : Locals) (cfg : Analysis) : Nat → List NestEntry → BlockId → Option (List Body)
  | 0, _, _ => none
  | fuel + 1, nest, x =>
    let count := (cfg.mergeChildren x).length
    if cfg.isLoopHeader x then
      (nodeWithin (doTree l cfg fuel) ctx fn l cfg x (⟨.loop, x⟩ :: nest) count).map
        fun body => [.loop body]
    else nodeWithin (doTree l cfg fuel) ctx fn l cfg x nest count

/-! ## The function -/

/-- The control flow goes to a block. -/
def isMulti : Bool :=
  fn.blocks.length > 1 || (fn.blocks.getD 0 {}).terminator?.any fun term =>
    term.op == .jump || term.op == .branch || term.op == .switch

/-- The code of a function whose analysis is known, if it has one. -/
def emitWith (fuel : Nat) : Option Analysis → Option Emitted
  | some cfg =>
    if cfg.reducible then do
      let l := assignLocals ctx.module fn false
      let code ← doTree ctx fn l cfg fuel [] 0
      some ⟨l, (prologue fn).map .plain ++ (code ++ [.unreachable])⟩
    else do
      let l := assignLocals ctx.module fn true
      let code ← (dispatchLoop ctx.module fn).bind (expandAll ctx fn l)
      some ⟨l, (prologue fn).map .plain ++ code⟩
  | none => do
    let l := assignLocals ctx.module fn false
    let code ← (fn.blocks.getD 0 {}).insts.mapM (emitInst ctx fn l 0)
    some ⟨l, (prologue fn).map .plain ++ (code.flatten ++ [.unreachable])⟩

/-- The code of a function. -/
def emit (fuel : Nat) : Option Emitted :=
  if isMulti fn then (buildCfg fuel fn).bind fun cfg => emitWith ctx fn fuel (some cfg)
  else emitWith ctx fn fuel none

end

end Mirage.Wasm.ShadowStack
