import Mirage.X86.ArgLayout
import Mirage.X86.Frame

/-!
# The emitter

The code of a function: one template for each MIR instruction (`Ctx.emitInst`),
which reads every operand from wherever the allocator put it, and the prologue
(`Ctx.prologue`). A template is a function from the instruction to the list of
machine instructions it emits; where the source leases a scratch register, the lease
is a local value, with the code that acquires and releases it in place.

`index` is the index of the instruction in layout order. It decides which
registers are occupied and which values a call saves, and it numbers the two labels of a
`select`.
-/

namespace Mirage.X86

/-! ## Inline asm -/

/-- A resolved operand of an asm instruction. -/
structure AsmArg where
  isMemory : Bool := false
  disp : Int := 0
  reg : Reg := .rax
  imm : BitVec 64 := 0
  isImm : Bool := false
  width : Width := .w64

/-- The register an asm operand names, at any width. -/
def regByName (name : String) : Option Reg :=
  ([("rax", Reg.rax), ("eax", .rax), ("ax", .rax), ("al", .rax),
    ("rcx", .rcx), ("ecx", .rcx), ("cx", .rcx), ("cl", .rcx),
    ("rdx", .rdx), ("edx", .rdx), ("dx", .rdx), ("dl", .rdx),
    ("rbx", .rbx), ("ebx", .rbx), ("bx", .rbx), ("bl", .rbx),
    ("rsp", .rsp), ("esp", .rsp), ("sp", .rsp), ("spl", .rsp),
    ("rbp", .rbp), ("ebp", .rbp), ("bp", .rbp), ("bpl", .rbp),
    ("rsi", .rsi), ("esi", .rsi), ("si", .rsi), ("sil", .rsi),
    ("rdi", .rdi), ("edi", .rdi), ("di", .rdi), ("dil", .rdi),
    ("r8", .r8), ("r8d", .r8), ("r8w", .r8), ("r8b", .r8),
    ("r9", .r9), ("r9d", .r9), ("r9w", .r9), ("r9b", .r9),
    ("r10", .r10), ("r10d", .r10), ("r10w", .r10), ("r10b", .r10),
    ("r11", .r11), ("r11d", .r11), ("r11w", .r11), ("r11b", .r11),
    ("r12", .r12), ("r12d", .r12), ("r12w", .r12), ("r12b", .r12),
    ("r13", .r13), ("r13d", .r13), ("r13w", .r13), ("r13b", .r13),
    ("r14", .r14), ("r14d", .r14), ("r14w", .r14), ("r14b", .r14),
    ("r15", .r15), ("r15d", .r15), ("r15w", .r15), ("r15b", .r15)] : List (String × Reg)).lookup name

def widthFromBits (bits : Nat) : Width :=
  match bits with
  | 8 => .w8
  | 16 => .w16
  | 32 => .w32
  | _ => .w64

/-- The width of an asm instruction: of its first register, else of its first
    memory operand. -/
def asmWidth (args : List AsmArg) : Width :=
  match args.find? fun arg => !arg.isMemory && !arg.isImm with
  | some arg => arg.width
  | none =>
    match args.find? (·.isMemory) with
    | some arg => arg.width
    | none => .w64

def aluOps (m : String) : Option Alu :=
  ([("add", Alu.add), ("sub", .sub), ("and", .and), ("or", .or), ("xor", .xor), ("cmp", .cmp)] :
    List (String × Alu)).lookup m

def unarySlots (m : String) : Option Nat :=
  ([("inc", 0), ("dec", 1), ("not", 2), ("neg", 3)] : List (String × Nat)).lookup m

/-- The instruction with two operands. -/
def emitAsmTwo (m : String) (w : Width) (dst src : AsmArg) : Option Instr :=
  let imm := src.imm.setWidth 32
  if m == "mov" && !dst.isMemory && src.isImm then some (.movRi dst.reg src.imm)
  else if m == "mov" && !dst.isMemory && !src.isMemory then some (.movRr w dst.reg src.reg)
  else if m == "mov" && !dst.isMemory then some (.load w dst.reg .rbp src.disp)
  else if m == "mov" && !src.isMemory && !src.isImm then some (.store w .rbp dst.disp src.reg)
  else if m == "mov" && src.isImm then some (.movMi w .rbp dst.disp imm)
  else if m == "movzx" && !dst.isMemory && src.isMemory then
    some (.movzxM src.width dst.reg .rbp src.disp)
  else if m == "movzx" && !dst.isMemory && !src.isImm then some (.movzx src.width dst.reg src.reg)
  else if m == "lea" && !dst.isMemory && src.isMemory then some (.lea dst.reg .rbp src.disp)
  else match aluOps m with
    | some alu =>
      if !dst.isMemory && src.isImm then some (.aluRi alu w dst.reg imm)
      else if !dst.isMemory && !src.isMemory then some (.aluRr alu w dst.reg src.reg)
      else if !dst.isMemory then some (.aluRm alu w dst.reg .rbp src.disp)
      else if src.isImm then some (.aluMi alu w .rbp dst.disp imm)
      else if !src.isMemory then some (.aluMr alu w .rbp dst.disp src.reg)
      else none
    | none =>
      if m == "test" && !dst.isMemory && !src.isMemory && !src.isImm then
        some (.testRr w dst.reg src.reg)
      else none

/-- The instruction with one operand. -/
def emitAsmOne (m : String) (w : Width) (arg : AsmArg) : Option Instr :=
  match unarySlots m with
  | some slot =>
    some (if arg.isMemory then .unaryM slot w .rbp arg.disp else .unaryR slot w arg.reg)
  | none =>
    if m == "push" then some (if arg.isMemory then .pushM .rbp arg.disp else .pushR arg.reg)
    else if m == "pop" then some (if arg.isMemory then .popM .rbp arg.disp else .popR arg.reg)
    else none

/-- One asm instruction, or `none` when the encoder has no form for it. -/
def emitAsmInstruction (m : String) (args : List AsmArg) : Option Instr :=
  if m == "nop" then some .nop
  else if m == "syscall" then some .syscall
  else if m == "cpuid" then some .cpuid
  else if m == "ret" then some .ret
  else match args with
    | [dst, src] => emitAsmTwo m (asmWidth args) dst src
    | [arg] => emitAsmOne m (asmWidth args) arg
    | _ => none

/-- An operand of an asm instruction, or the error that it has none; `disp` gives
    the frame offset of a variable operand. -/
def asmArg (disp : Nat → Option Int) (operand : AsmOperand) : Except String AsmArg :=
  match operand.kind with
  | .register =>
    match regByName operand.reg with
    | some reg => .ok { reg, width := widthFromBits operand.widthBits }
    | none => .error s!"inline asm: unsupported register '{operand.reg}'"
  | .immediate => .ok { isImm := true, imm := operand.imm }
  | .variable =>
    match disp operand.argIndex with
    | some disp => .ok { isMemory := true, disp, width := widthFromBits operand.widthBits }
    | none => .error "inline asm: a variable operand did not resolve to a frame slot"

/-- The errors among the results of a list of operands. -/
def argErrors (args : List (Except String AsmArg)) : List String :=
  args.filterMap fun
    | .ok _ => none
    | .error e => some e

def argValues (args : List (Except String AsmArg)) : List AsmArg :=
  args.filterMap fun
    | .ok a => some a
    | .error _ => none

/-- The instructions of an asm block. An operand that does not resolve ends the
    block; an instruction the encoder has no form for is reported and left out.
    The flag says whether the end was reached. -/
def emitAsmCode (disp : Nat → Option Int) :
    List AsmInstruction → List Instr × List String × Bool
  | [] => ([], [], true)
  | instruction :: rest =>
    let operands := instruction.operands.map (asmArg disp)
    if argErrors operands ≠ [] then ([], argErrors operands, false)
    else
      let (code, errors, done) := emitAsmCode disp rest
      match emitAsmInstruction instruction.mnemonic (argValues operands) with
      | some i => (i :: code, errors, done)
      | none =>
        (code, s!"inline asm: cannot encode '{instruction.mnemonic}' with {operands.length} operand(s) in this form (line {instruction.line})" :: errors, done)

namespace Ctx

variable (c : Ctx)

/-- The frame offset a variable operand refers to: only the address of a slot
    qualifies. -/
def slotDispOf (value : ValueId) : Option Int :=
  match c.fn.values[value]? with
  | none => none
  | some def' =>
    if def'.isParam then none
    else match c.fn.blocks[def'.block]? with
      | none => none
      | some block =>
        match block.insts.find? (·.result = value) with
        | none => none
        | some candidate =>
          if candidate.op != .slotAddr then none else some (c.offsetOf (.slot candidate.a))

/-- The frame offset of an argument of an asm instruction. -/
def asmDisp (args : List ValueId) (k : Nat) : Option Int := args[k]? >>= c.slotDispOf

/-! ## Value movement -/

/-- Copy an integer value into a register. -/
def gprInto (v : ValueId) (dst : Reg) : List Instr :=
  if c.inReg v then
    if c.valGpr v ≠ dst then [.movRr .w64 dst (c.valGpr v)] else []
  else [.load .w64 dst .rbp (c.valOff v)]

/-- A sign-extended read at the width of the value. -/
def gprIntoSigned (v : ValueId) (dst : Reg) : List Instr :=
  let width := widthOf (c.fn.valueType v)
  c.gprInto v dst ++ (if width ≠ .w64 then [.movsx width dst dst] else [])

def xmmInto (v : ValueId) (dst : XReg) : List Instr :=
  if c.inReg v then
    if c.valXmm v ≠ dst then [.movaps dst (c.valXmm v)] else []
  else if c.isDouble v then [.movsdLoad dst .rbp (c.valOff v)]
  else [.movssLoad dst .rbp (c.valOff v)]

/-- A register that holds a value or will: the assigned one, or a scratch. -/
def useGpr (occupied : List PhysReg) (v : ValueId) (exclude : List PhysReg) : Reg × Lease :=
  if c.inReg v then (c.valGpr v, .none)
  else ((leaseGpr occupied exclude).reg, leaseGpr occupied exclude)

/-- The code of `use_gpr`: a spilled value is loaded into its scratch. -/
def useGprCode (v : ValueId) (l : Lease) : List Instr :=
  if c.inReg v then [] else l.acquire ++ [.load .w64 l.reg .rbp (c.valOff v)]

def useXmm (occupied : List PhysReg) (v : ValueId) (exclude : List PhysReg) : XReg × XLease :=
  if c.inReg v then (c.valXmm v, .none)
  else ((leaseXmm occupied exclude).reg, leaseXmm occupied exclude)

def useXmmCode (v : ValueId) (l : XLease) : List Instr :=
  if c.inReg v then [] else l.acquire ++ c.xmmInto v l.reg

/-- Re-establish the zero-extended form at the width of a type. -/
def canonicalize (reg : Reg) (type : Ty) : List Instr :=
  match widthOf type with
  | .w8 => [.movzx .w8 reg reg]
  | .w16 => [.movzx .w16 reg reg]
  | .w32 => [.movRr .w32 reg reg]
  | .w64 => []

def commitGpr (v : ValueId) (computed : Reg) : List Instr :=
  if c.inReg v then
    if c.valGpr v ≠ computed then [.movRr .w64 (c.valGpr v) computed] else []
  else [.store .w64 .rbp (c.valOff v) computed]

def commitXmm (v : ValueId) (computed : XReg) : List Instr :=
  if c.inReg v then
    if c.valXmm v ≠ computed then [.movaps (c.valXmm v) computed] else []
  else if c.isDouble v then [.movsdStore .rbp (c.valOff v) computed]
  else [.movssStore .rbp (c.valOff v) computed]

/-! ## Constants and addresses -/

/-- The immediate of an integer constant, masked to the width of its type. -/
def constBits (inst : Inst) : BitVec 64 :=
  let bits := typeBits inst.type c.module.pointerBits
  if bits ≠ 0 ∧ bits < 64 then inst.imm &&& BitVec.ofNat 64 (2 ^ bits - 1) else inst.imm

/-- Integer and address constants, into their register. -/
def materializeInto (inst : Inst) (dst : Reg) : List Instr :=
  match inst.op with
  | .constInt => [.movRi dst (c.constBits inst)]
  | .constNull => [.zero dst]
  | .globalAddr => [.leaRip dst (.global inst.a)]
  | .funcAddr => [.leaRip dst (.function inst.a)]
  | .slotAddr => [.lea dst .rbp (c.offsetOf (.slot inst.a))]
  | _ => []

def materialize (index : Nat) (inst : Inst) : List Instr :=
  let occ := c.occupied index
  if inst.op == .constFloat then
    -- the raw bits ride a general register
    let l := leaseGpr occ []
    l.acquire ++ [.movRi l.reg inst.imm] ++
    (if c.inReg inst.result then [.movRX (c.valXmm inst.result) l.reg]
    else [.store (if inst.type == .f64 then .w64 else .w32) .rbp (c.valOff inst.result) l.reg]) ++
    l.release
  else
    let (dst, l) := c.useGpr occ inst.result []
    l.acquire ++ c.materializeInto inst dst ++ c.commitGpr inst.result dst ++ l.release

/-! ## Calls -/

/-- The interval is live strictly across the instruction. -/
def crossesCall (interval : Interval) (index : Nat) : Bool :=
  interval.start < posU index && interval.end > posL index

/-- The intervals a call saves and restores. -/
def savedAround (index : Nat) : List Interval :=
  (c.active index).filter fun i =>
    (c.assignment i.value).saveAroundCalls && crossesCall i index

def callSaves (index : Nat) : List Instr :=
  (c.savedAround index).map fun i =>
    match (c.assignment i.value).reg with
    | some (.xmm x) => .movsdStore .rbp (c.saveOff i.value) x
    | _ => .store .w64 .rbp (c.saveOff i.value) (c.valGpr i.value)

def callRestores (index : Nat) : List Instr :=
  (c.savedAround index).map fun i =>
    match (c.assignment i.value).reg with
    | some (.xmm x) => .movsdLoad x .rbp (c.saveOff i.value)
    | _ => .load .w64 (c.valGpr i.value) .rbp (c.saveOff i.value)

/-- Where a call template reads a value: `none` for its register, else the offset
    of its spill area, or of its save area when the call saves it. -/
def callOperand (index : Nat) (v : ValueId) : Option Int :=
  if !c.inReg v then some (c.valOff v)
  else if (c.assignment v).saveAroundCalls &&
      (c.active index).any (fun i => i.value = v && crossesCall i index) then some (c.saveOff v)
  else none

def callArgIntoGpr (index : Nat) (v : ValueId) (dst : Reg) : List Instr :=
  match c.callOperand index v with
  | some off => [.load .w64 dst .rbp off]
  | none => if c.valGpr v ≠ dst then [.movRr .w64 dst (c.valGpr v)] else []

def callArgIntoXmm (index : Nat) (v : ValueId) (dst : XReg) : List Instr :=
  match c.callOperand index v with
  | none => if c.valXmm v ≠ dst then [.movaps dst (c.valXmm v)] else []
  | some off => if c.isDouble v then [.movsdLoad dst .rbp off] else [.movssLoad dst .rbp off]

/-- The number of 8-byte chunks of a byval argument. -/
def byvalChunks (byval : BitVec 32) : List Int :=
  (List.range ((byvalBytes byval).toNat / 8)).map fun k => (k : Int) * 8

/-- A stack argument, through `rax`; an aggregate in chunks, through `r11`. -/
def stackArg (index : Nat) (sig : Signature) (i : Nat) (v : ValueId) (off : Int) : List Instr :=
  if off < 0 then []
  else if byvalOf sig i ≠ 0 then
    c.callArgIntoGpr index v .r11 ++
    (byvalChunks (byvalOf sig i)).flatMap fun chunk =>
      [.load .w64 .rax .r11 chunk, .store .w64 .rsp (off + chunk) .rax]
  else c.callArgIntoGpr index v .rax ++ [.store .w64 .rsp off .rax]

/-- The arguments that go to the stack. -/
def stackArgs (index : Nat) (sig : Signature) (args : List ValueId) (slots : List ArgSlot) :
    List Instr :=
  (args.zip slots).zipIdx.flatMap fun ((v, slot), i) =>
    match slot with
    | .stack off => c.stackArg index sig i v off
    | _ => []

/-- The arguments that go to registers. -/
def registerArgs (index : Nat) (args : List ValueId) (slots : List ArgSlot) : List Instr :=
  (args.zip slots).flatMap fun (v, slot) =>
    match slot with
    | .float k => c.callArgIntoXmm index v (Fin.ofNat 16 k)
    | .int k => c.callArgIntoGpr index v (intArgRegs.getD k .rdi)
    | .stack _ => []

/-- The result of a call, from `rax` or `xmm0`. -/
def commitCall (inst : Inst) : List Instr :=
  if inst.result = noValue then []
  else if isFloat (c.fn.valueType inst.result) then c.commitXmm inst.result 0
  else canonicalize .rax inst.type ++ c.commitGpr inst.result .rax

/-- The two words of a C return, stored through the stashed pointer. -/
def storeTwoWords (sig : Signature) : List Instr :=
  if sig.cRetWords == 2 then
    [.load .w64 .r11 .rbp (c.offsetOf .cretStash),
      if sig.cRetSse.1 then .movsdStore .r11 0 0 else .store .w64 .r11 0 .rax,
      if sig.cRetSse.2 then .movsdStore .r11 8 1 else .store .w64 .r11 8 .rdx]
  else []

/-- The classification of the arguments of a call; nothing is passed when a sum
    overflows the counters, which the source leaves undefined. -/
def callSlots (sig : Signature) (args : List ValueId) : List ArgSlot × ArgCounters :=
  (classify sig 0 (args.map c.fn.valueType) { stack := 0 }).getD ([], { stack := 0 })

/-- The stack bytes a call reserves, a multiple of 16. -/
def callReserve (sig : Signature) (args : List ValueId) : Int :=
  ((c.callSlots sig args).2.stack + 15).tdiv 16 * 16

/-- What comes before the call instruction. -/
def callSetup (index : Nat) (inst : Inst) (indirect : Bool) : List Instr :=
  let sig := c.calleeSignature inst
  let args := physicalArgs sig inst.args
  let slots := (c.callSlots sig args).1
  let reserve := c.callReserve sig args
  (match inst.args.getLast? with
    | some out =>
      if sig.cRetWords == 2 then
        c.callArgIntoGpr index out .rax ++ [.store .w64 .rbp (c.offsetOf .cretStash) .rax]
      else []
    | none => []) ++
  (if reserve > 0 then [.subRsp reserve] else []) ++
  c.stackArgs index sig args slots ++
  (if indirect then c.callArgIntoGpr index inst.a .r11 else []) ++
  c.registerArgs index args slots ++
  (if sig.isVariadic then [.movRi .rax (BitVec.ofNat 64 (c.callSlots sig args).2.floats)] else [])

def emitCall (index : Nat) (inst : Inst) (indirect : Bool) : List Instr :=
  let sig := c.calleeSignature inst
  let reserve := c.callReserve sig (physicalArgs sig inst.args)
  c.callSaves index ++ c.callSetup index inst indirect ++
  [if indirect then .callR .r11 else .callSym (.function inst.a)] ++
  (if reserve > 0 then [.addRsp reserve] else []) ++
  c.commitCall inst ++ c.storeTwoWords sig ++ c.callRestores index

/-- `mem.copy` and `mem.set` are calls of libc. -/
def emitMemOp (index : Nat) (inst : Inst) (isSet : Bool) : List Instr :=
  c.callSaves index ++
  (c.callArgIntoGpr index inst.a .rdi ++ c.callArgIntoGpr index inst.b .rsi ++
    c.callArgIntoGpr index inst.c .rdx) ++
  [.callSym (if isSet then .memset else .memcpy)] ++ c.callRestores index

/-- `frem` is a call of libm. -/
def emitFrem (index : Nat) (inst : Inst) : List Instr :=
  c.callSaves index ++
  (c.callArgIntoXmm index inst.a 0 ++ c.callArgIntoXmm index inst.b 1 ++ [.movRi .rax 2]) ++
  [.callSym (if inst.type == .f64 then .fmod else .fmodf)] ++
  c.commitXmm inst.result 0 ++ c.callRestores index

/-! ## Comparisons -/

def icmpCond : Op → Cond
  | .icmpEq => .e
  | .icmpNe => .ne
  | .icmpSlt => .l
  | .icmpSle => .le
  | .icmpSgt => .g
  | .icmpSge => .ge
  | .icmpUlt => .b
  | .icmpUle => .be
  | .icmpUgt => .a
  | _ => .ae

/-- Integers compare at 64 bits, or at 32 for every narrower type. -/
def icmpWidth (v : ValueId) : Width :=
  if widthOf (c.fn.valueType v) = .w64 then .w64 else .w32

def emitIcmp (index : Nat) (inst : Inst) : List Instr :=
  let occ := c.occupied index
  let (ar, al) := c.useGpr occ inst.a (c.excl [inst.b, inst.result])
  let (dst, dl) := c.useGpr occ inst.result (c.excl [inst.a, inst.b])
  c.useGprCode inst.a al ++
  (if c.inReg inst.b then [.aluRr .cmp (c.icmpWidth inst.a) ar (c.valGpr inst.b)]
  else [.aluRm .cmp (c.icmpWidth inst.a) ar .rbp (c.valOff inst.b)]) ++
  al.release ++ dl.acquire ++
  [.setcc (icmpCond inst.op) dst, .movzx .w8 dst dst] ++ c.commitGpr inst.result dst ++ dl.release

/-- The condition a float comparison reads; equality also checks the parity. -/
def fcmpSet (occ : List PhysReg) (op : Op) (dst : Reg) : List Instr :=
  match op with
  | .fcmpOeq =>
    let p := leaseGpr occ [.gpr dst]
    p.acquire ++ [.setcc .e dst, .setcc .np p.reg, .aluRr .and .w8 dst p.reg] ++ p.release
  | .fcmpOne => [.setcc .ne dst]
  | .fcmpOlt | .fcmpOgt => [.setcc .a dst]
  | .fcmpOle | .fcmpOge => [.setcc .ae dst]
  | _ => [.setcc .e dst]

def emitFcmp (index : Nat) (inst : Inst) : List Instr :=
  let occ := c.occupied index
  let dbl := c.fn.valueType inst.a == .f64
  let swap := inst.op == .fcmpOlt || inst.op == .fcmpOle
  let first := if swap then inst.b else inst.a
  let second := if swap then inst.a else inst.b
  let (fx, fl) := c.useXmm occ first (c.excl [second])
  let (dst, dl) := c.useGpr occ inst.result []
  c.useXmmCode first fl ++
  (if c.inReg second then [.ucomis dbl fx (c.valXmm second)]
  else [.ucomisM dbl fx .rbp (c.valOff second)]) ++
  fl.release ++ dl.acquire ++ fcmpSet (occ ++ dl.mask) inst.op dst ++
  [.movzx .w8 dst dst] ++ c.commitGpr inst.result dst ++ dl.release

/-! ## Inline asm -/

def emitAsm (inst : Inst) : List Instr × List String :=
  let block := c.module.asmBlocks.getD inst.a {}
  let (code, errors, done) := emitAsmCode (c.asmDisp inst.args) block.instructions
  if !done || inst.result = noValue then (code, errors)
  else match regByName block.resultRegister with
    | some reg => (code ++ canonicalize reg inst.type ++ c.commitGpr inst.result reg, errors)
    | none =>
      (code, errors ++ [s!"inline asm: unsupported result register '{block.resultRegister}'"])

/-! ## Block arguments -/

/-- An argument into the staging cell of its parameter. -/
def stageArg (occ : List PhysReg) (arg param : ValueId) : List Instr :=
  let staging := c.offsetOf (.staging param)
  if c.inReg arg && isFloat (c.fn.valueType arg) then [.movsdStore .rbp staging (c.valXmm arg)]
  else if c.inReg arg then [.store .w64 .rbp staging (c.valGpr arg)]
  else
    let l := leaseGpr occ []
    l.acquire ++ [.load .w64 l.reg .rbp (c.valOff arg), .store .w64 .rbp staging l.reg] ++ l.release

/-- A parameter from its staging cell into its home. -/
def loadParamFromStaging (occ : List PhysReg) (param : ValueId) : List Instr :=
  let staging := c.offsetOf (.staging param)
  if c.inReg param then
    if isFloat (c.fn.valueType param) then
      if c.isDouble param then [.movsdLoad (c.valXmm param) .rbp staging]
      else [.movssLoad (c.valXmm param) .rbp staging]
    else [.load .w64 (c.valGpr param) .rbp staging]
  else
    let l := leaseGpr occ []
    l.acquire ++ [.load .w64 l.reg .rbp staging, .store .w64 .rbp (c.valOff param) l.reg] ++
    l.release

/-- All arguments into staging, then all parameters out of it. -/
def passBlockArgs (occ : List PhysReg) (target : BlockId) (args : List ValueId) : List Instr :=
  let pairs := args.zip (c.fn.blocks.getD target {}).params
  pairs.flatMap (fun (arg, param) => c.stageArg occ arg param) ++
  pairs.flatMap fun (_, param) => c.loadParamFromStaging occ param

/-! ## The templates -/

/-- A result computed in place: into its register or a scratch, then committed. -/
def defTemplate (index : Nat) (inst : Inst) (exclude : List PhysReg) (body : Reg → List Instr) :
    List Instr :=
  let (dst, l) := c.useGpr (c.occupied index) inst.result exclude
  l.acquire ++ body dst ++ c.commitGpr inst.result dst ++ l.release

def defXmmTemplate (index : Nat) (inst : Inst) (exclude : List PhysReg)
    (body : XReg → List Instr) : List Instr :=
  let (dst, l) := c.useXmm (c.occupied index) inst.result exclude
  l.acquire ++ body dst ++ c.commitXmm inst.result dst ++ l.release

def emitLoad (index : Nat) (inst : Inst) : List Instr :=
  let occ := c.occupied index
  let (addr, al) := c.useGpr occ inst.a (c.excl [inst.result])
  if isFloat inst.type then
    let (dst, dl) := c.useXmm (occ ++ al.mask) inst.result []
    c.useGprCode inst.a al ++ dl.acquire ++
    [if inst.type == .f64 then .movsdLoad dst addr 0 else .movssLoad dst addr 0] ++
    c.commitXmm inst.result dst ++ dl.release ++ al.release
  else
    let (dst, dl) := c.useGpr (occ ++ al.mask) inst.result (c.excl [inst.a] ++ [.gpr addr])
    let width := widthOf inst.type
    c.useGprCode inst.a al ++ dl.acquire ++ [.load width dst addr 0] ++
    (if width = .w8 ∨ width = .w16 then [.movzx width dst dst] else []) ++
    c.commitGpr inst.result dst ++ dl.release ++ al.release

def emitStore (index : Nat) (inst : Inst) : List Instr :=
  let occ := c.occupied index
  let (addr, al) := c.useGpr occ inst.a (c.excl [inst.b])
  if isFloat (c.fn.valueType inst.b) then
    let (src, sl) := c.useXmm (occ ++ al.mask) inst.b []
    c.useGprCode inst.a al ++ c.useXmmCode inst.b sl ++
    [if c.isDouble inst.b then .movsdStore addr 0 src else .movssStore addr 0 src] ++
    sl.release ++ al.release
  else
    let (src, sl) := c.useGpr (occ ++ al.mask) inst.b (c.excl [inst.a] ++ [.gpr addr])
    c.useGprCode inst.a al ++ c.useGprCode inst.b sl ++
    [.store (widthOf (c.fn.valueType inst.b)) addr 0 src] ++ sl.release ++ al.release

def emitStackAlloc (inst : Inst) : List Instr :=
  c.gprInto inst.a .rax ++
  [.aluRi .add .w64 .rax 15, .aluRi .and .w64 .rax (-16), .aluRr .sub .w64 .rsp .rax,
    .aluRi .and .w64 .rsp (-16), .movRr .w64 .rax .rsp] ++
  c.commitGpr inst.result .rax

def emitPtrAddConst (index : Nat) (inst : Inst) : List Instr :=
  let disp := (inst.imm.setWidth 32).toInt
  c.defTemplate index inst (c.excl [inst.a]) fun dst =>
    if c.inReg inst.a then [.lea dst (c.valGpr inst.a) disp]
    else [.load .w64 dst .rbp (c.valOff inst.a), .lea dst dst disp]

/-- The second operand of an ALU operation: a register or memory. -/
def aluOperand (alu : Alu) (dst : Reg) (v : ValueId) : List Instr :=
  if c.inReg v then [.aluRr alu .w64 dst (c.valGpr v)] else [.aluRm alu .w64 dst .rbp (c.valOff v)]

def mulOperand (dst : Reg) (v : ValueId) : List Instr :=
  if c.inReg v then [.imulRr dst (c.valGpr v)] else [.imulRm dst .rbp (c.valOff v)]

def aluOf : Op → Alu
  | .add => .add
  | .sub => .sub
  | .and => .and
  | .or => .or
  | _ => .xor

/-- The address arithmetic and the two-operand integer operations. -/
def emitBinary (index : Nat) (inst : Inst) : List Instr :=
  c.defTemplate index inst (c.excl [inst.a, inst.b]) fun dst =>
    c.gprInto inst.a dst ++
    match inst.op with
    | .mul => c.mulOperand dst inst.b ++ canonicalize dst inst.type
    | .ptrAdd => c.aluOperand .add dst inst.b
    | .add | .sub => c.aluOperand (aluOf inst.op) dst inst.b ++ canonicalize dst inst.type
    | op => c.aluOperand (aluOf op) dst inst.b

def emitSignedDiv (index : Nat) (inst : Inst) : List Instr :=
  let bWidth := widthOf (c.fn.valueType inst.b)
  let out := if inst.op == .sdiv then Reg.rax else .rdx
  c.gprIntoSigned inst.a .rax ++ [.cqo] ++
  (if c.inReg inst.b && bWidth = .w64 then [.idivR (c.valGpr inst.b)]
  else if bWidth = .w64 then [.idivM .rbp (c.valOff inst.b)]
  else
    let l := leaseGpr (c.occupied index)
      (c.excl [inst.a, inst.b, inst.result] ++ [.gpr .rax, .gpr .rdx])
    l.acquire ++ c.gprIntoSigned inst.b l.reg ++ [.idivR l.reg] ++ l.release) ++
  canonicalize out inst.type ++ c.commitGpr inst.result out

def emitUnsignedDiv (inst : Inst) : List Instr :=
  c.gprInto inst.a .rax ++ [.zero .rdx] ++
  (if c.inReg inst.b then [.divR (c.valGpr inst.b)] else [.divM .rbp (c.valOff inst.b)]) ++
  c.commitGpr inst.result (if inst.op == .udiv then .rax else .rdx)

def emitShift (index : Nat) (inst : Inst) : List Instr :=
  c.gprInto inst.b .rcx ++
  c.defTemplate index inst (c.excl [inst.a, inst.b] ++ [.gpr .rcx]) fun dst =>
    (if inst.op == .ashr then c.gprIntoSigned inst.a dst else c.gprInto inst.a dst) ++
    match inst.op with
    | .shl => .shlCl dst :: canonicalize dst inst.type
    | .lshr => [.shrCl dst]
    | _ => .sarCl dst :: canonicalize dst inst.type

/-- `not`, `neg` and the integer conversions. -/
def emitUnary (index : Nat) (inst : Inst) : List Instr :=
  c.defTemplate index inst (c.excl [inst.a]) fun dst =>
    match inst.op with
    | .not =>
      c.gprInto inst.a dst ++
      (if inst.type == .i1 then [.aluRi .xor .w8 dst 1]
      else .notR dst :: canonicalize dst inst.type)
    | .neg => c.gprInto inst.a dst ++ .negR dst :: canonicalize dst inst.type
    | .trunc => c.gprInto inst.a dst ++ canonicalize dst inst.type
    | .sext => c.gprIntoSigned inst.a dst ++ canonicalize dst inst.type
    -- a canonical operand is already zero-extended: the move is the whole operation
    | _ => c.gprInto inst.a dst

def sseOpcode : Op → Nat
  | .fadd => 0x58
  | .fsub => 0x5C
  | .fmul => 0x59
  | _ => 0x5E

def emitFloatBinary (index : Nat) (inst : Inst) : List Instr :=
  let dbl := inst.type == .f64
  c.defXmmTemplate index inst (c.excl [inst.a, inst.b]) fun dst =>
    c.xmmInto inst.a dst ++
    if c.inReg inst.b then [.sseArith (sseOpcode inst.op) dbl dst (c.valXmm inst.b)]
    else [.sseArithM (sseOpcode inst.op) dbl dst .rbp (c.valOff inst.b)]

/-- The raw bits of a result in a general register, moved to a float home. -/
def commitBits (v : ValueId) (dbl : Bool) (reg : Reg) : List Instr :=
  if c.inReg v then [.movRX (c.valXmm v) reg]
  else [.store (if dbl then .w64 else .w32) .rbp (c.valOff v) reg]

def emitFneg (index : Nat) (inst : Inst) : List Instr :=
  let occ := c.occupied index
  let dbl := inst.type == .f64
  let l := leaseGpr occ []
  let mask := leaseGpr (occ ++ l.mask) [.gpr l.reg]
  l.acquire ++
  (if c.inReg inst.a then [.movXR l.reg (c.valXmm inst.a)]
  else [.load (widthOf (c.fn.valueType inst.a)) l.reg .rbp (c.valOff inst.a)]) ++
  mask.acquire ++
  [.movRi mask.reg (if dbl then 0x8000000000000000 else 0x80000000),
    .aluRr .xor .w64 l.reg mask.reg] ++
  mask.release ++ c.commitBits inst.result dbl l.reg ++ l.release

def emitBitcast (index : Nat) (inst : Inst) : List Instr :=
  let srcType := c.fn.valueType inst.a
  let l := leaseGpr (c.occupied index) (c.excl [inst.a, inst.result])
  l.acquire ++
  (if isFloat srcType && c.inReg inst.a then [.movXR l.reg (c.valXmm inst.a)]
  else c.gprInto inst.a l.reg) ++
  (if srcType = .f32 then canonicalize l.reg .i32 else []) ++
  (if isFloat inst.type then c.commitBits inst.result (inst.type == .f64) l.reg
  else c.commitGpr inst.result l.reg) ++
  l.release

def emitFloatConvert (index : Nat) (inst : Inst) : List Instr :=
  c.defXmmTemplate index inst (c.excl [inst.a]) fun dst =>
    c.xmmInto inst.a dst ++ [.cvtF2f (inst.type == .f64) dst dst]

def emitIntToFloat (index : Nat) (inst : Inst) : List Instr :=
  let occ := c.occupied index
  let l := leaseGpr occ (c.excl [inst.a, inst.result])
  let (dst, dl) := c.useXmm (occ ++ l.mask) inst.result []
  l.acquire ++
  (if inst.op == .sitofp then c.gprIntoSigned inst.a l.reg else c.gprInto inst.a l.reg) ++
  dl.acquire ++ [.cvtI2f (inst.type == .f64) dst l.reg] ++ c.commitXmm inst.result dst ++
  dl.release ++ l.release

def emitFloatToInt (index : Nat) (inst : Inst) : List Instr :=
  let occ := c.occupied index
  let (src, sl) := c.useXmm occ inst.a []
  let (dst, dl) := c.useGpr (occ ++ sl.mask) inst.result (c.excl [inst.a])
  c.useXmmCode inst.a sl ++ dl.acquire ++
  [.cvtF2i (c.fn.valueType inst.a == .f64) dst src] ++ canonicalize dst inst.type ++
  c.commitGpr inst.result dst ++ dl.release ++ sl.release

def emitSelect (index : Nat) (inst : Inst) : List Instr :=
  let occ := c.occupied index
  let (cond, cl) := c.useGpr occ inst.a (c.excl [inst.b, inst.c, inst.result])
  c.useGprCode inst.a cl ++ [.testRr .w8 cond cond] ++ cl.release ++
  if isFloat inst.type then
    c.defXmmTemplate index inst (c.excl [inst.b, inst.c]) fun dst =>
      [.jcc .e (.skip index)] ++ c.xmmInto inst.b dst ++
      [.jmp (.done index), .bind (.skip index)] ++ c.xmmInto inst.c dst ++ [.bind (.done index)]
  else
    c.defTemplate index inst (c.excl [inst.a, inst.b, inst.c]) fun dst =>
      [.jcc .e (.skip index)] ++ c.gprInto inst.b dst ++
      [.jmp (.done index), .bind (.skip index)] ++ c.gprInto inst.c dst ++ [.bind (.done index)]

def emitBranch (index : Nat) (inst : Inst) : List Instr :=
  let (cond, cl) := c.useGpr (c.occupied index) inst.a []
  c.useGprCode inst.a cl ++ [.testRr .w8 cond cond] ++ cl.release ++
  [.jcc .ne (.block inst.b), .jmp (.block inst.c)]

/-- The compares of a switch: case values are 32-bit, sign-extended against a
    64-bit scrutinee. -/
def switchCases (wide : Bool) (scrutinee : Reg) : List Nat → List Instr
  | value :: target :: rest =>
    (if wide then
      [.movRi .rcx ((BitVec.ofNat 32 value).signExtend 64), .aluRr .cmp .w64 scrutinee .rcx]
    else [.movRi .rcx ((BitVec.ofNat 32 value).setWidth 64), .aluRr .cmp .w32 scrutinee .rcx]) ++
    .jcc .e (.block target) :: switchCases wide scrutinee rest
  | _ => []

def emitSwitch (inst : Inst) : List Instr :=
  let wide := widthOf (c.fn.valueType inst.a) = .w64
  (if c.inReg inst.a then [] else c.gprInto inst.a .rax) ++
  switchCases wide (if c.inReg inst.a then c.valGpr inst.a else .rax) inst.args ++
  [.jmp (.block inst.b)]

def emitEpilogue : List Instr :=
  (calleeSavedRegs.filter (· ∈ c.ra.usedCalleeSaved)).map
    (fun r => .load .w64 r .rbp (c.offsetOf (.calleeSave r))) ++
  [.movRr .w64 .rsp .rbp, .popR .rbp, .ret]

def emitReturn (inst : Inst) : List Instr :=
  let sig := c.ownSig
  (match inst.args with
    | value :: _ =>
      if isFloat (c.fn.valueType value) then c.xmmInto value 0 else c.gprInto value .rax
    | [] => []) ++
  (if sig.cRetWords == 2 then
    [if sig.cRetSse.1 then .movsdLoad 0 .rbp (c.offsetOf .cretBlob)
      else .load .w64 .rax .rbp (c.offsetOf .cretBlob),
      if sig.cRetSse.2 then .movsdLoad 1 .rbp (c.offsetOf .cretBlob + 8)
      else .load .w64 .rdx .rbp (c.offsetOf .cretBlob + 8)]
  else if sig.cSret then [.load .w64 .rax .rbp (c.offsetOf .sretStash)] else []) ++
  c.emitEpilogue

/-- The template of an instruction. -/
def emitInst (index : Nat) (inst : Inst) : List Instr :=
  match inst.op with
  | .constInt | .constFloat | .constNull | .globalAddr | .funcAddr | .slotAddr =>
    c.materialize index inst
  | .load => c.emitLoad index inst
  | .store => c.emitStore index inst
  | .memCopy => c.emitMemOp index inst false
  | .memSet => c.emitMemOp index inst true
  | .stackAlloc => c.emitStackAlloc inst
  | .ptrAddConst => c.emitPtrAddConst index inst
  | .ptrAdd | .add | .sub | .and | .or | .xor | .mul => c.emitBinary index inst
  | .sdiv | .srem => c.emitSignedDiv index inst
  | .udiv | .urem => c.emitUnsignedDiv inst
  | .shl | .lshr | .ashr => c.emitShift index inst
  | .not | .neg | .trunc | .zext | .ptrToInt | .intToPtr | .sext => c.emitUnary index inst
  | .fadd | .fsub | .fmul | .fdiv => c.emitFloatBinary index inst
  | .frem => c.emitFrem index inst
  | .fneg => c.emitFneg index inst
  | .icmpEq | .icmpNe | .icmpSlt | .icmpSle | .icmpSgt | .icmpSge
  | .icmpUlt | .icmpUle | .icmpUgt | .icmpUge => c.emitIcmp index inst
  | .fcmpOeq | .fcmpOne | .fcmpOlt | .fcmpOle | .fcmpOgt | .fcmpOge => c.emitFcmp index inst
  | .bitcast => c.emitBitcast index inst
  | .fptrunc | .fpext => c.emitFloatConvert index inst
  | .sitofp | .uitofp => c.emitIntToFloat index inst
  | .fptosi | .fptoui => c.emitFloatToInt index inst
  | .select => c.emitSelect index inst
  | .call => c.emitCall index inst false
  | .callIndirect => c.emitCall index inst true
  | .asm => (c.emitAsm inst).1
  | .jump => c.passBlockArgs (c.occupied index) inst.a inst.args ++ [.jmp (.block inst.a)]
  | .branch => c.emitBranch index inst
  | .switch => c.emitSwitch inst
  | .ret => c.emitReturn inst
  | .unreachable => [.ud2]

/-! ## Functions -/

/-- An incoming argument, into its parameter's home cell: the spill area, or the
    staging cell of a parameter that lives in a register. -/
def storeIncoming (param : ValueId) (i : Nat) (place : Incoming) : List Instr :=
  let home := if c.inReg param then c.offsetOf (.staging param) else c.valOff param
  match place with
  | .byval off => [.lea .rax .rbp off, .store .w64 .rbp home .rax]
  | .retBlob => [.lea .rax .rbp (c.offsetOf .cretBlob), .store .w64 .rbp home .rax]
  | .float k => [.movsdStore .rbp home (Fin.ofNat 16 k)]
  | .int k =>
    (if c.ownSig.cSret && i == 0 then [.store .w64 .rbp (c.offsetOf .sretStash) .rdi] else []) ++
    [.store .w64 .rbp home (intArgRegs.getD k .rdi)]
  | .stack off => [.load .w64 .rax .rbp off, .store .w64 .rbp home .rax]

/-- The parameters of the entry block. -/
def entryParams : List ValueId := (c.fn.blocks.getD 0 {}).params

/-- The incoming arguments: first all into memory, then those that live in
    registers into them. -/
def incoming : List Instr :=
  let params := c.entryParams
  let places := ((incomingArgs c.ownSig params.length 0 (params.map c.fn.valueType)
    { stack := 16 }).getD ([], { stack := 16 })).1
  (params.zip places).zipIdx.flatMap (fun ((param, place), i) => c.storeIncoming param i place) ++
  (params.filter c.inReg).flatMap (c.loadParamFromStaging [])

/-- The prologue: the frame, the callee-saved registers, the incoming arguments. -/
def prologue : List Instr :=
  [.pushR .rbp, .movRr .w64 .rbp .rsp] ++
  (if c.frameSize > 0 then [.subRsp c.frameSize] else []) ++
  (calleeSavedRegs.filter (· ∈ c.ra.usedCalleeSaved)).map
    (fun r => .store .w64 .rbp (c.offsetOf (.calleeSave r)) r) ++
  c.incoming

/-- The code of a block, whose first instruction has the given index. -/
def emitBlock (b : BlockId) (block : Block) (first : Nat) : List Instr :=
  .bind (.block b) :: (block.insts.zipIdx first).flatMap fun (inst, index) =>
    if c.fn.isNaked && inst.op == .ret then [.ret] else c.emitInst index inst

/-- The code of a function; a naked one has no prologue. -/
def emit : List Instr :=
  (if c.fn.isNaked then [] else c.prologue) ++
  ((c.fn.blocks.zip (indexBlocks 0 c.fn.blocks)).zipIdx).flatMap fun ((block, span), b) =>
    c.emitBlock b block span.first

end Ctx

end Mirage.X86
