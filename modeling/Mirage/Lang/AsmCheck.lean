import Mirage.Lang.TypeIdentity

/-!
# Checking inline assembly

What the checker does with the instructions of an asm block (`checkAsmInstructions`): it
resolves the variables they name, compares the number of operands with a table, and collects
the *families* of the registers the block writes, which the register allocator keeps free. A
family is the 64-bit register a register is a part of.

Which operands an instruction writes comes from a table of mnemonics (`asmTier1Directions`);
for a mnemonic that is not in it the first operand is assumed to be read and written. What an
instruction writes besides its operands comes from `asmImplicitClobbers`.

A module's globals are in scope under the locals of a function, so that an operand may name a
constant of the module.
-/

namespace Mirage.Asm

open Identity (ResolvedType ScalarKind)

/-! ## Registers -/

structure RegisterInfo where
  name : String
  family : String
  widthBits : Nat
  deriving DecidableEq, Repr

/-- The general registers at their four widths. -/
def registers : List RegisterInfo :=
  ([("rax", "rax", 64), ("rbx", "rbx", 64), ("rcx", "rcx", 64), ("rdx", "rdx", 64),
    ("rdi", "rdi", 64), ("rsi", "rsi", 64), ("rsp", "rsp", 64), ("rbp", "rbp", 64),
    ("r8", "r8", 64), ("r9", "r9", 64), ("r10", "r10", 64), ("r11", "r11", 64),
    ("r12", "r12", 64), ("r13", "r13", 64), ("r14", "r14", 64), ("r15", "r15", 64),
    ("eax", "rax", 32), ("ebx", "rbx", 32), ("ecx", "rcx", 32), ("edx", "rdx", 32),
    ("edi", "rdi", 32), ("esi", "rsi", 32), ("esp", "rsp", 32), ("ebp", "rbp", 32),
    ("r8d", "r8", 32), ("r9d", "r9", 32), ("r10d", "r10", 32), ("r11d", "r11", 32),
    ("r12d", "r12", 32), ("r13d", "r13", 32), ("r14d", "r14", 32), ("r15d", "r15", 32),
    ("ax", "rax", 16), ("bx", "rbx", 16), ("cx", "rcx", 16), ("dx", "rdx", 16),
    ("di", "rdi", 16), ("si", "rsi", 16), ("sp", "rsp", 16), ("bp", "rbp", 16),
    ("r8w", "r8", 16), ("r9w", "r9", 16), ("r10w", "r10", 16), ("r11w", "r11", 16),
    ("r12w", "r12", 16), ("r13w", "r13", 16), ("r14w", "r14", 16), ("r15w", "r15", 16),
    ("al", "rax", 8), ("bl", "rbx", 8), ("cl", "rcx", 8), ("dl", "rdx", 8), ("dil", "rdi", 8),
    ("sil", "rsi", 8), ("spl", "rsp", 8), ("bpl", "rbp", 8), ("r8b", "r8", 8), ("r9b", "r9", 8),
    ("r10b", "r10", 8), ("r11b", "r11", 8), ("r12b", "r12", 8), ("r13b", "r13", 8),
    ("r14b", "r14", 8), ("r15b", "r15", 8)] :
    List (String × String × Nat)).map fun (name, family, widthBits) => { name, family, widthBits }

def lookupRegister (name : String) : Option RegisterInfo := registers.find? (·.name == name)

/-- A register operand: the lexer makes one of a name that the table has, with the width
    the table gives. -/
structure RegisterOperand where
  info : RegisterInfo
  lexed : lookupRegister info.name = some info
  deriving DecidableEq

inductive Operand
  | register (reg : RegisterOperand)
  | immediate (value : BitVec 64)
  | «variable» (name : String) (isAddress : Bool)
  deriving DecidableEq

structure Instruction where
  mnemonic : String
  operands : List Operand := []
  line : Nat := 0
  deriving DecidableEq

/-! ## Names -/

/-- The types an operand may have. -/
def isScalar : ResolvedType → Bool
  | .pointer _ => true
  | .scalar kind =>
    kind ∈ [.u8, .u16, .u32, .u64, .i8, .i16, .i32, .i64, .usize, .f32, .f64, .bool, .anyptr]
  | _ => false

def scalarBitWidth : ResolvedType → Nat
  | .scalar .u8 | .scalar .i8 | .scalar .bool => 8
  | .scalar .u16 | .scalar .i16 => 16
  | .scalar .u32 | .scalar .i32 | .scalar .f32 => 32
  | .scalar .u64 | .scalar .i64 | .scalar .usize | .pointer _ | .scalar .anyptr
  | .scalar .f64 => 64
  | _ => 0

/-- The bytes of a scalar on a 64-bit target. -/
def sizeOf : ResolvedType → Nat
  | .scalar .u8 | .scalar .i8 | .scalar .bool => 1
  | .scalar .u16 | .scalar .i16 => 2
  | .scalar .u32 | .scalar .i32 | .scalar .f32 => 4
  | .scalar .u64 | .scalar .i64 | .scalar .usize | .pointer _ | .scalar .anyptr
  | .scalar .f64 => 8
  | _ => 0

def isSigned : ResolvedType → Bool
  | .scalar .i8 | .scalar .i16 | .scalar .i32 | .scalar .i64 => true
  | _ => false

/-- A parameter or a local variable: its slot in the frame. -/
structure Local where
  slot : Nat
  type : ResolvedType

/-- The argument of a value parameter of a generic function. -/
structure ValueArg where
  type : ResolvedType
  value : Int

/-- A global of the module. A constant that is not all relocations carries its value as
    bytes, as many as its type has. -/
structure Global where
  type : ResolvedType
  isConstant : Bool
  init : List (BitVec 8)
  hasRelocations : Bool
  init_length : init = [] ∨ init.length = sizeOf type

/-- The names in scope at an asm block, the inner ones before the outer ones. -/
structure Scope where
  locals : List (String × Local) := []
  valueArgs : List (String × ValueArg) := []
  globals : List (String × Global) := []

/-- The type of a name: a local hides a value parameter, which hides a global. -/
def Scope.find (scope : Scope) (name : String) : Option ResolvedType :=
  (scope.locals.lookup name).map (·.type) <|> (scope.valueArgs.lookup name).map (·.type) <|>
    (scope.globals.lookup name).map (·.type)

/-! ## Tables -/

inductive Direction
  | read | write | readWrite
  deriving DecidableEq, Repr

/-- What an instruction does with its operands. -/
def asmTier1Directions (mnemonic : String) : Option (List Direction) :=
  ([("mov", [.write, .read]), ("movzx", [.write, .read]), ("lea", [.write, .read]),
    ("add", [.readWrite, .read]), ("sub", [.readWrite, .read]), ("and", [.readWrite, .read]),
    ("or", [.readWrite, .read]), ("xor", [.readWrite, .read]),
    ("not", [.readWrite]), ("neg", [.readWrite]), ("inc", [.readWrite]), ("dec", [.readWrite]),
    ("cmp", [.read, .read]), ("test", [.read, .read]), ("push", [.read]), ("pop", [.write]),
    ("nop", []), ("ret", []),
    ("jmp", [.read]), ("je", [.read]), ("jne", [.read]), ("jl", [.read]), ("jle", [.read]),
    ("jg", [.read]), ("jge", [.read]), ("ja", [.read]), ("jae", [.read]), ("jb", [.read]),
    ("jbe", [.read]), ("jz", [.read]), ("jnz", [.read]),
    ("syscall", []), ("call", [.read])] : List (String × List Direction)).lookup mnemonic

/-- The families an instruction writes whatever its operands are. -/
def asmImplicitClobbers (mnemonic : String) (operandCount : Nat) : List String :=
  if mnemonic == "syscall" then ["rax", "rcx", "r11"]
  else if mnemonic == "call" then ["rax", "rcx", "rdx", "rsi", "rdi", "r8", "r9", "r10", "r11"]
  else if mnemonic == "div" || mnemonic == "idiv" then ["rax", "rdx"]
  else if (mnemonic == "mul" || mnemonic == "imul") && operandCount == 1 then ["rax", "rdx"]
  else []

/-- The directions of the operands: of the table, else the first one read and written
    and the others read. -/
def directions (mnemonic : String) (operands : List Operand) : List Direction :=
  match asmTier1Directions mnemonic with
  | some tier1 => tier1
  | none =>
    match operands with
    | [] => []
    | _ :: rest => .readWrite :: rest.map fun _ => .read

/-! ## The checks -/

inductive Error
  | unknownIdentifier (name : String)
  | notScalar (name : String) (type : ResolvedType)
  | operandCount (mnemonic : String) (expected got : Nat)
  | movzxSource (bits : Nat)
  | movzxWidths (dst src : Nat)
  deriving DecidableEq, Repr

/-- The type of a variable operand, where it has one an operand may have. -/
def operandType (scope : Scope) : Operand → Option ResolvedType
  | .variable name _ => (scope.find name).filter isScalar
  | _ => none

def variableErrors (scope : Scope) : Operand → List Error
  | .variable name _ =>
    match scope.find name with
    | none => [.unknownIdentifier name]
    | some type => if isScalar type then [] else [.notScalar name type]
  | _ => []

def operandCountErrors (instruction : Instruction) : List Error :=
  match asmTier1Directions instruction.mnemonic with
  | some tier1 =>
    if tier1.length ≠ instruction.operands.length then
      [.operandCount instruction.mnemonic tier1.length instruction.operands.length]
    else []
  | none => []

/-- The width of an operand of `movzx`, if it is known. -/
def operandWidth (scope : Scope) : Operand → Option Nat
  | .register reg => some reg.info.widthBits
  | operand => ((operandType scope operand).map scalarBitWidth).filter (· ≠ 0)

def movzxErrors (scope : Scope) (instruction : Instruction) : List Error :=
  let dstWidth := instruction.operands[0]?.bind (operandWidth scope)
  let srcWidth := instruction.operands[1]?.bind (operandWidth scope)
  match srcWidth with
  | none => []
  | some src =>
    if src ≠ 8 ∧ src ≠ 16 then [.movzxSource src]
    else match dstWidth with
      | some dst => if dst ≤ src then [.movzxWidths dst src] else []
      | none => []

def instructionErrors (scope : Scope) (instruction : Instruction) : List Error :=
  instruction.operands.flatMap (variableErrors scope) ++ operandCountErrors instruction ++
    if instruction.mnemonic == "movzx" then movzxErrors scope instruction else []

/-- The family of a register operand that is written. -/
def writtenFamily : Operand × Direction → Option String
  | (.register reg, .write) | (.register reg, .readWrite) =>
    (lookupRegister reg.info.name).map (·.family)
  | _ => none

def writtenFamilies (instruction : Instruction) : List String :=
  asmImplicitClobbers instruction.mnemonic instruction.operands.length ++
    (instruction.operands.zip (directions instruction.mnemonic instruction.operands)).filterMap
      writtenFamily

/-- The errors of a list of instructions, and the families they write. -/
def checkAsmInstructions (scope : Scope) (instructions : List Instruction) :
    List Error × List String :=
  (instructions.flatMap (instructionErrors scope), instructions.flatMap writtenFamilies)

/-- An asm block. The expression form has a result register. -/
structure Block where
  instructions : List Instruction
  result : Option RegisterOperand := none

/-- The check of a block: the family of the result register is always clobbered. -/
def checkAsm (scope : Scope) (block : Block) : List Error × List String :=
  let (errors, families) := checkAsmInstructions scope block.instructions
  (errors, families ++ (block.result.bind fun reg => lookupRegister reg.info.name).toList.map
    (·.family))

end Mirage.Asm
