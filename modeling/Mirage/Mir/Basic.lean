import Mathlib.Data.List.Basic
import Mathlib.Data.BitVec

/-!
# The Mirage IR

The data model of MIR: eight scalar types, instructions with per-op operand
fields, blocks with parameters (in place of phi nodes), functions and modules.
A value is an instruction result or a block parameter, named by a dense index
into `Function.values`; `noValue` is the absent operand.

The operand fields `a`, `b`, `c` and `args` of an instruction are plain
numbers: whether they name a value, a block, a slot or a table entry depends on
the op. `valueOperands` lists the ones that name values, as
`for_each_value_operand` visits them, and `mapValueOperands` rewrites them in
place. `successors` reads the targets of a terminator.
-/

namespace Mirage

/-! ## Types and ops -/

/-- The scalar types of MIR. -/
inductive Ty
  | void | i1 | i8 | i16 | i32 | i64 | f32 | f64 | ptr
  deriving DecidableEq, Repr

/-- The name of a type in diagnostics. -/
def typeName : Ty → String
  | .void => "void"
  | .i1 => "i1"
  | .i8 => "i8"
  | .i16 => "i16"
  | .i32 => "i32"
  | .i64 => "i64"
  | .f32 => "f32"
  | .f64 => "f64"
  | .ptr => "ptr"

/-- The width of a type in bits; a pointer has the width of the target. -/
def typeBits (type : Ty) (pointerBits : Nat) : Nat :=
  match type with
  | .void => 0
  | .i1 => 1
  | .i8 => 8
  | .i16 => 16
  | .i32 => 32
  | .i64 => 64
  | .f32 => 32
  | .f64 => 64
  | .ptr => pointerBits

def isFloat (type : Ty) : Bool := type == .f32 || type == .f64

def isInteger (type : Ty) : Bool :=
  type == .i1 || type == .i8 || type == .i16 || type == .i32 || type == .i64

/-- The operations, in the order of the source. -/
inductive Op
  -- constants and addresses
  | constInt | constFloat | constNull | globalAddr | slotAddr | stackAlloc | funcAddr
  -- memory
  | load | store | memCopy | memSet
  -- address arithmetic
  | ptrAddConst | ptrAdd
  -- integer arithmetic
  | add | sub | mul | sdiv | udiv | srem | urem
  | and | or | xor | shl | lshr | ashr
  | not | neg
  -- float arithmetic
  | fadd | fsub | fmul | fdiv | frem | fneg
  -- comparison
  | icmpEq | icmpNe
  | icmpSlt | icmpSle | icmpSgt | icmpSge
  | icmpUlt | icmpUle | icmpUgt | icmpUge
  | fcmpOeq | fcmpOne | fcmpOlt | fcmpOle | fcmpOgt | fcmpOge
  -- conversion
  | trunc | zext | sext
  | fptrunc | fpext
  | fptosi | fptoui | sitofp | uitofp
  | ptrToInt | intToPtr
  | bitcast
  | select
  | asm
  -- calls
  | call | callIndirect
  -- terminators
  | jump | branch | switch | ret | unreachable
  deriving DecidableEq, Repr

/-- The name of an op in the textual IR and in diagnostics. -/
def opName : Op → String
  | .constInt => "const.int"
  | .constFloat => "const.float"
  | .constNull => "const.null"
  | .globalAddr => "global.addr"
  | .slotAddr => "slot.addr"
  | .stackAlloc => "stackalloc"
  | .funcAddr => "func.addr"
  | .load => "load"
  | .store => "store"
  | .memCopy => "mem.copy"
  | .memSet => "mem.set"
  | .ptrAddConst => "ptr.add.const"
  | .ptrAdd => "ptr.add"
  | .add => "add"
  | .sub => "sub"
  | .mul => "mul"
  | .sdiv => "sdiv"
  | .udiv => "udiv"
  | .srem => "srem"
  | .urem => "urem"
  | .and => "and"
  | .or => "or"
  | .xor => "xor"
  | .shl => "shl"
  | .lshr => "lshr"
  | .ashr => "ashr"
  | .not => "not"
  | .neg => "neg"
  | .fadd => "fadd"
  | .fsub => "fsub"
  | .fmul => "fmul"
  | .fdiv => "fdiv"
  | .frem => "frem"
  | .fneg => "fneg"
  | .icmpEq => "icmp.eq"
  | .icmpNe => "icmp.ne"
  | .icmpSlt => "icmp.slt"
  | .icmpSle => "icmp.sle"
  | .icmpSgt => "icmp.sgt"
  | .icmpSge => "icmp.sge"
  | .icmpUlt => "icmp.ult"
  | .icmpUle => "icmp.ule"
  | .icmpUgt => "icmp.ugt"
  | .icmpUge => "icmp.uge"
  | .fcmpOeq => "fcmp.oeq"
  | .fcmpOne => "fcmp.one"
  | .fcmpOlt => "fcmp.olt"
  | .fcmpOle => "fcmp.ole"
  | .fcmpOgt => "fcmp.ogt"
  | .fcmpOge => "fcmp.oge"
  | .trunc => "trunc"
  | .zext => "zext"
  | .sext => "sext"
  | .fptrunc => "fptrunc"
  | .fpext => "fpext"
  | .fptosi => "fptosi"
  | .fptoui => "fptoui"
  | .sitofp => "sitofp"
  | .uitofp => "uitofp"
  | .ptrToInt => "ptrtoint"
  | .intToPtr => "inttoptr"
  | .bitcast => "bitcast"
  | .select => "select"
  | .asm => "asm"
  | .call => "call"
  | .callIndirect => "call.indirect"
  | .jump => "jump"
  | .branch => "branch"
  | .switch => "switch"
  | .ret => "return"
  | .unreachable => "unreachable"

def isTerminator (op : Op) : Bool :=
  op == .jump || op == .branch || op == .switch || op == .ret || op == .unreachable

/-- Whether the op defines a value (a call only when its callee returns one). -/
def definesValue (op : Op) : Bool :=
  if isTerminator op then false
  else op != .store && op != .memCopy && op != .memSet

/-- The range `Add .. AShr`. -/
def isIntBinary : Op → Bool
  | .add | .sub | .mul | .sdiv | .udiv | .srem | .urem
  | .and | .or | .xor | .shl | .lshr | .ashr => true
  | _ => false

/-- The range `ICmpEq .. ICmpUge`. -/
def isIntComparison : Op → Bool
  | .icmpEq | .icmpNe | .icmpSlt | .icmpSle | .icmpSgt | .icmpSge
  | .icmpUlt | .icmpUle | .icmpUgt | .icmpUge => true
  | _ => false

/-- The range `FCmpOeq .. FCmpOge`. -/
def isFloatComparison : Op → Bool
  | .fcmpOeq | .fcmpOne | .fcmpOlt | .fcmpOle | .fcmpOgt | .fcmpOge => true
  | _ => false

def isComparison (op : Op) : Bool := isIntComparison op || isFloatComparison op

/-! ## Instructions, functions, modules -/

abbrev ValueId := Nat
abbrev BlockId := Nat

/-- The absent-operand marker, `UINT32_MAX`. -/
def noValue : Nat := 4294967295

/-- An instruction. Its source position, read by no modelled function, is left out. -/
structure Inst where
  op : Op := .unreachable
  /-- The type of the defined value; `void` when nothing is defined. -/
  type : Ty := .void
  result : Nat := noValue
  a : Nat := noValue
  b : Nat := noValue
  c : Nat := noValue
  /-- The constant, or the offset of `ptrAddConst`, as a 64-bit pattern. -/
  imm : BitVec 64 := 0
  /-- Call arguments, jump arguments, switch (value, block) pairs, returned values. -/
  args : List Nat := []
  deriving DecidableEq

/-- Where a value comes from. -/
structure ValueDef where
  block : BlockId := noValue
  /-- The index of the instruction, or of the parameter when `isParam`. -/
  index : Nat := 0
  type : Ty := .void
  isParam : Bool := false
  deriving DecidableEq

structure Block where
  label : String := ""
  params : List ValueId := []
  insts : List Inst := []
  deriving DecidableEq

/-- An addressable stack slot. -/
structure Slot where
  size : Nat := 0
  align : Nat := 1
  name : String := ""
  addressEscapes : Bool := false
  deriving DecidableEq

/-- A function signature, with the C-ABI shapes MIR values cannot express. -/
structure Signature where
  params : List Ty := []
  result : Ty := .void
  isVariadic : Bool := false
  byvalSizes : List (BitVec 32) := []
  byvalAligns : List (BitVec 32) := []
  cRetWords : Nat := 0
  cRetSse : Bool × Bool := (false, false)
  cSret : Bool := false
  deriving DecidableEq

structure Function where
  name : String := ""
  signature : Nat := 0
  params : List ValueId := []
  blocks : List Block := []
  slots : List Slot := []
  values : List ValueDef := []
  hasBody : Bool := false
  isNaked : Bool := false
  deriving DecidableEq

inductive AsmOperand.Kind
  | register | immediate | variable
  deriving DecidableEq

/-- A resolved inline-asm operand: a register or an immediate is literal, a
    variable refers to an argument of the instruction. -/
structure AsmOperand where
  kind : AsmOperand.Kind := .register
  reg : String := ""
  widthBits : Nat := 64
  imm : BitVec 64 := 0
  argIndex : Nat := 0
  deriving DecidableEq

structure AsmInstruction where
  mnemonic : String := ""
  operands : List AsmOperand := []
  line : Nat := 0
  deriving DecidableEq

structure AsmBlock where
  instructions : List AsmInstruction := []
  clobberedFamilies : List String := []
  resultRegister : String := ""
  deriving DecidableEq

/-- A module. Of its globals only the number matters to the modelled functions. -/
structure Module where
  pointerBits : Nat := 64
  functions : List Function := []
  globals : Nat := 0
  signatures : List Signature := []
  asmBlocks : List AsmBlock := []

instance : Inhabited Inst := ⟨{}⟩
instance : Inhabited ValueDef := ⟨{}⟩
instance : Inhabited Block := ⟨{}⟩
instance : Inhabited Slot := ⟨{}⟩
instance : Inhabited Signature := ⟨{}⟩
instance : Inhabited Function := ⟨{}⟩
instance : Inhabited AsmBlock := ⟨{}⟩

/-- The type of a value, as the table of the function records it. -/
def Function.valueType (fn : Function) (v : ValueId) : Ty := (fn.values.getD v {}).type

/-! ## Operands and targets -/

/-- The value operands of an instruction, in the order `for_each_value_operand`
    visits them. -/
def valueOperands (inst : Inst) : List ValueId :=
  match inst.op with
  | .constInt | .constFloat | .constNull | .globalAddr | .slotAddr | .funcAddr
  | .unreachable => []
  | .load | .ptrAddConst | .stackAlloc => [inst.a]
  | .store | .ptrAdd => [inst.a, inst.b]
  | .memCopy | .memSet | .select => [inst.a, inst.b, inst.c]
  -- the `a` of an asm instruction is a block index, of a call a function index
  | .call | .asm => inst.args
  | .callIndirect => inst.a :: inst.args
  | .jump => inst.args
  | .branch => [inst.a]
  -- the `args` of a switch are constants and labels
  | .switch => [inst.a]
  | .ret => inst.args
  | _ => if inst.b ≠ noValue then [inst.a, inst.b] else [inst.a]

/-- The instruction with its value operands rewritten by `f`. -/
def mapValueOperands (f : ValueId → ValueId) (inst : Inst) : Inst :=
  match inst.op with
  | .constInt | .constFloat | .constNull | .globalAddr | .slotAddr | .funcAddr
  | .unreachable => inst
  | .load | .ptrAddConst | .stackAlloc => { inst with a := f inst.a }
  | .store | .ptrAdd => { inst with a := f inst.a, b := f inst.b }
  | .memCopy | .memSet | .select => { inst with a := f inst.a, b := f inst.b, c := f inst.c }
  | .call | .asm => { inst with args := inst.args.map f }
  | .callIndirect => { inst with a := f inst.a, args := inst.args.map f }
  | .jump => { inst with args := inst.args.map f }
  | .branch => { inst with a := f inst.a }
  | .switch => { inst with a := f inst.a }
  | .ret => { inst with args := inst.args.map f }
  | _ =>
    if inst.b ≠ noValue then { inst with a := f inst.a, b := f inst.b }
    else { inst with a := f inst.a }

/-- The case targets of a switch: the second components of the (value, block)
    pairs flattened in `args`. -/
def caseTargets : List Nat → List BlockId
  | _ :: target :: rest => target :: caseTargets rest
  | _ => []

/-- The targets of a terminator, in the order the passes push them. -/
def Inst.successors (term : Inst) : List BlockId :=
  match term.op with
  | .jump => [term.a]
  | .branch => [term.b, term.c]
  | .switch => term.b :: caseTargets term.args
  | _ => []

/-- The terminator of a block: its last instruction. -/
def Block.terminator? (block : Block) : Option Inst := block.insts.getLast?

/-- The successors of a block; none for a block without instructions. -/
def Block.successors (block : Block) : List BlockId :=
  match block.terminator? with
  | some term => term.successors
  | none => []

/-- The successors of the block `b` of a function. -/
def Function.successors (fn : Function) (b : BlockId) : List BlockId :=
  (fn.blocks.getD b {}).successors

end Mirage
