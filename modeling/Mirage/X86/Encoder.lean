import Mirage.X86.Machine
import Mirage.X86.Decode

/-!
# The x86-64 encoder

The methods of `Encoder`, as the bytes each of them appends, and the state they work on:
the code, the relocations, the labels and the jumps still to be patched. `Call` is one
call of a method; `Encoder.run` makes a sequence of them, and `Encoder.resolveLabels`
patches the jumps.
-/

namespace Mirage.X86

/-! ## Numbers of registers, conditions and operations -/

def Reg.number : Reg → Byte
  | .rax => 0
  | .rcx => 1
  | .rdx => 2
  | .rbx => 3
  | .rsp => 4
  | .rbp => 5
  | .rsi => 6
  | .rdi => 7
  | .r8 => 8
  | .r9 => 9
  | .r10 => 10
  | .r11 => 11
  | .r12 => 12
  | .r13 => 13
  | .r14 => 14
  | .r15 => 15

def XReg.number (x : XReg) : Byte := BitVec.ofNat 8 x.val

/-- The low nibble of the opcodes of `setcc` and `jcc`. -/
def Cond.number : Cond → Byte
  | .e => 0x4
  | .ne => 0x5
  | .l => 0xC
  | .le => 0xE
  | .g => 0xF
  | .ge => 0xD
  | .b => 0x2
  | .be => 0x6
  | .a => 0x7
  | .ae => 0x3
  | .p => 0xA
  | .np => 0xB

/-- The slot of an operation of the classic family. -/
def Alu.number : Alu → Byte
  | .add => 0
  | .or => 1
  | .and => 4
  | .sub => 5
  | .xor => 6
  | .cmp => 7

namespace Enc

/-! ## Pieces -/

def low3 (reg : Byte) : Byte := reg &&& 7

def ext (reg : Byte) : Bool := reg &&& 8 ≠ 0

/-- Byte operations on `SPL`, `BPL`, `SIL` and `DIL` need a REX prefix. -/
def needsByteRex (reg : Byte) : Bool := 4 ≤ reg ∧ reg ≤ 7

def imm32 (value : BitVec 32) : List Byte :=
  (List.range 4).map fun i => (value.sshiftRight (8 * i)).setWidth 8

def imm64 (value : BitVec 64) : List Byte :=
  (List.range 8).map fun i => (value.sshiftRight (8 * i)).setWidth 8

/-- No index register is ever used. -/
def rex (w : Bool) (reg rm : Byte) (force : Bool) : List Byte :=
  let byte : Byte := 0x40 ||| (if w then 0x08 else 0) ||| (if ext reg then 0x04 else 0) |||
    if ext rm then 0x01 else 0
  if byte ≠ 0x40 ∨ force then [byte] else []

def modrmReg (reg rm : Byte) : List Byte := [0xC0 ||| (low3 reg <<< 3) ||| low3 rm]

/-- `[base + disp32]`; a base of `RSP` or `R12` takes a SIB byte. -/
def modrmMem (reg : Byte) (base : Reg) (disp : BitVec 32) : List Byte :=
  [0x80 ||| (low3 reg <<< 3) ||| low3 base.number] ++
  (if low3 base.number = 4 then [0x24] else []) ++ imm32 disp

/-- `[rip + disp32]`, the displacement left to a relocation. -/
def modrmRip (reg : Byte) : List Byte := [0x00 ||| (low3 reg <<< 3) ||| 0x05] ++ imm32 0

/-- The prefix of the 16-bit forms. -/
def size16 (w : Width) : List Byte := if w = .w16 then [0x66] else []

/-- The immediate of an operation at a width. -/
def immOf (w : Width) (imm : BitVec 32) : List Byte :=
  match w with
  | .w8 => [imm.setWidth 8]
  | .w16 => [imm.setWidth 8, (imm.sshiftRight 8).setWidth 8]
  | .w32 | .w64 => imm32 imm

/-! ## Moves -/

def movRi (dst : Reg) (imm : BitVec 64) : List Byte :=
  -- the 32-bit form extends with zeros
  if 0 ≤ imm.toInt ∧ imm.toInt ≤ 2147483647 then
    rex false 0 dst.number false ++ [0xB8 ||| low3 dst.number] ++ imm32 (imm.setWidth 32)
  else rex true 0 dst.number false ++ [0xB8 ||| low3 dst.number] ++ imm64 imm

def movRr (w : Width) (dst src : Reg) : List Byte :=
  size16 w ++ rex (w = .w64) src.number dst.number
    (w = .w8 ∧ (needsByteRex src.number ∨ needsByteRex dst.number)) ++
  [if w = .w8 then 0x88 else 0x89] ++ modrmReg src.number dst.number

def load (w : Width) (dst base : Reg) (disp : BitVec 32) : List Byte :=
  size16 w ++ rex (w = .w64) dst.number base.number (w = .w8 ∧ needsByteRex dst.number) ++
  [if w = .w8 then 0x8A else 0x8B] ++ modrmMem dst.number base disp

def store (w : Width) (base : Reg) (disp : BitVec 32) (src : Reg) : List Byte :=
  size16 w ++ rex (w = .w64) src.number base.number (w = .w8 ∧ needsByteRex src.number) ++
  [if w = .w8 then 0x88 else 0x89] ++ modrmMem src.number base disp

def movzx (src : Width) (dst reg : Reg) : List Byte :=
  -- there is no `movzx` from 32 bits
  if src = .w32 then rex false reg.number dst.number false ++ [0x89] ++
    modrmReg reg.number dst.number
  else rex true dst.number reg.number (src = .w8 ∧ needsByteRex reg.number) ++
    [0x0F, if src = .w8 then 0xB6 else 0xB7] ++ modrmReg dst.number reg.number

def movsx (src : Width) (dst reg : Reg) : List Byte :=
  rex true dst.number reg.number (src = .w8 ∧ needsByteRex reg.number) ++
  (if src = .w32 then [0x63] else [0x0F, if src = .w8 then 0xBE else 0xBF]) ++
  modrmReg dst.number reg.number

def lea (dst base : Reg) (disp : BitVec 32) : List Byte :=
  rex true dst.number base.number false ++ [0x8D] ++ modrmMem dst.number base disp

def leaRip (dst : Reg) : List Byte :=
  rex true dst.number 5 false ++ [0x8D] ++ modrmRip dst.number

/-! ## Integer arithmetic -/

def aluRr (op : Alu) (w : Width) (dst src : Reg) : List Byte :=
  size16 w ++ rex (w = .w64) src.number dst.number
    (w = .w8 ∧ (needsByteRex src.number ∨ needsByteRex dst.number)) ++
  [(op.number * 8) ||| if w = .w8 then 0x00 else 0x01] ++ modrmReg src.number dst.number

def aluRi (op : Alu) (w : Width) (dst : Reg) (imm : BitVec 32) : List Byte :=
  size16 w ++ rex (w = .w64) 0 dst.number (w = .w8 ∧ needsByteRex dst.number) ++
  [if w = .w8 then 0x80 else 0x81] ++ modrmReg op.number dst.number ++ immOf w imm

def imulRr (dst src : Reg) : List Byte :=
  rex true dst.number src.number false ++ [0x0F, 0xAF] ++ modrmReg dst.number src.number

def cqo : List Byte := [0x48, 0x99]

def zero (reg : Reg) : List Byte :=
  rex false reg.number reg.number false ++ [0x31] ++ modrmReg reg.number reg.number

/-- The one-operand operations that have an opcode and a slot in its register field. -/
def unary (w : Width) (opcode slot : Byte) (reg : Reg) : List Byte :=
  rex (w = .w64) 0 reg.number false ++ [opcode] ++ modrmReg slot reg.number

def divR (src : Reg) : List Byte := unary .w64 0xF7 6 src
def idivR (src : Reg) : List Byte := unary .w64 0xF7 7 src
def negR (w : Width) (reg : Reg) : List Byte := unary w 0xF7 3 reg
def notR (w : Width) (reg : Reg) : List Byte := unary w 0xF7 2 reg
def shlCl (w : Width) (reg : Reg) : List Byte := unary w 0xD3 4 reg
def shrCl (w : Width) (reg : Reg) : List Byte := unary w 0xD3 5 reg
def sarCl (w : Width) (reg : Reg) : List Byte := unary w 0xD3 7 reg

def testRr (w : Width) (a b : Reg) : List Byte :=
  rex (w = .w64) b.number a.number
    (w = .w8 ∧ (needsByteRex a.number ∨ needsByteRex b.number)) ++
  [if w = .w8 then 0x84 else 0x85] ++ modrmReg b.number a.number

def setcc (cond : Cond) (dst : Reg) : List Byte :=
  rex false 0 dst.number (needsByteRex dst.number) ++ [0x0F, 0x90 ||| cond.number] ++
  modrmReg 0 dst.number

/-! ## Scalar floats -/

/-- A float operation with a prefix, between a register and another operand. -/
def floatRr (pre : List Byte) (w : Bool) (opcode reg rm : Byte) : List Byte :=
  pre ++ rex w reg rm false ++ [0x0F, opcode] ++ modrmReg reg rm

def floatRm (pre : List Byte) (opcode reg : Byte) (base : Reg) (disp : BitVec 32) : List Byte :=
  pre ++ rex false reg base.number false ++ [0x0F, opcode] ++ modrmMem reg base disp

/-- The prefix of the double forms and of the single ones. -/
def scalar (double : Bool) : List Byte := [if double then 0xF2 else 0xF3]

def movssLoad (dst : XReg) (base : Reg) (disp : BitVec 32) : List Byte :=
  floatRm [0xF3] 0x10 (XReg.number dst) base disp
def movssStore (base : Reg) (disp : BitVec 32) (src : XReg) : List Byte :=
  floatRm [0xF3] 0x11 (XReg.number src) base disp
def movsdLoad (dst : XReg) (base : Reg) (disp : BitVec 32) : List Byte :=
  floatRm [0xF2] 0x10 (XReg.number dst) base disp
def movsdStore (base : Reg) (disp : BitVec 32) (src : XReg) : List Byte :=
  floatRm [0xF2] 0x11 (XReg.number src) base disp
def sseArith (opcode : Byte) (double : Bool) (dst src : XReg) : List Byte :=
  floatRr (scalar double) false opcode (XReg.number dst) (XReg.number src)
def movaps (dst src : XReg) : List Byte :=
  floatRr [] false 0x28 (XReg.number dst) (XReg.number src)
def ucomis (double : Bool) (a b : XReg) : List Byte :=
  floatRr (if double then [0x66] else []) false 0x2E (XReg.number a) (XReg.number b)
def cvtI2f (toDouble : Bool) (src : Width) (dst : XReg) (reg : Reg) : List Byte :=
  floatRr (scalar toDouble) (src = .w64) 0x2A (XReg.number dst) reg.number
def cvtF2i (fromDouble : Bool) (w : Width) (dst : Reg) (src : XReg) : List Byte :=
  floatRr (scalar fromDouble) (w = .w64) 0x2C dst.number (XReg.number src)
def cvtF2f (toDouble : Bool) (dst src : XReg) : List Byte :=
  -- the prefix tells the source
  floatRr [if toDouble then 0xF3 else 0xF2] false 0x5A (XReg.number dst) (XReg.number src)
def movRX (dst : XReg) (src : Reg) : List Byte :=
  floatRr [0x66] true 0x6E (XReg.number dst) src.number
def movXR (dst : Reg) (src : XReg) : List Byte :=
  floatRr [0x66] true 0x7E (XReg.number src) dst.number

/-! ## Control flow -/

/-- The field of a jump is patched when labels are resolved. -/
def jmp (rel : BitVec 32) : List Byte := [0xE9] ++ imm32 rel
def jcc (cond : Cond) (rel : BitVec 32) : List Byte := [0x0F, 0x80 ||| cond.number] ++ imm32 rel

/-- The field of a direct call is left to a relocation. -/
def callSym : List Byte := [0xE8] ++ imm32 0
def callR (target : Reg) : List Byte :=
  rex false 0 target.number false ++ [0xFF] ++ modrmReg 2 target.number
def ret : List Byte := [0xC3]
def pushR (reg : Reg) : List Byte := rex false 0 reg.number false ++ [0x50 ||| low3 reg.number]
def popR (reg : Reg) : List Byte := rex false 0 reg.number false ++ [0x58 ||| low3 reg.number]
def subRsp (bytes : BitVec 32) : List Byte := aluRi .sub .w64 .rsp bytes
def addRsp (bytes : BitVec 32) : List Byte := aluRi .add .w64 .rsp bytes
def ud2 : List Byte := [0x0F, 0x0B]

/-! ## Inline assembly -/

def nop : List Byte := [0x90]
def syscall : List Byte := [0x0F, 0x05]
def cpuid : List Byte := [0x0F, 0xA2]

def aluRm (op : Alu) (w : Width) (dst base : Reg) (disp : BitVec 32) : List Byte :=
  size16 w ++ rex (w = .w64) dst.number base.number (w = .w8 ∧ needsByteRex dst.number) ++
  [(op.number * 8) ||| if w = .w8 then 0x02 else 0x03] ++ modrmMem dst.number base disp

def aluMr (op : Alu) (w : Width) (base : Reg) (disp : BitVec 32) (src : Reg) : List Byte :=
  size16 w ++ rex (w = .w64) src.number base.number (w = .w8 ∧ needsByteRex src.number) ++
  [(op.number * 8) ||| if w = .w8 then 0x00 else 0x01] ++ modrmMem src.number base disp

def aluMi (op : Alu) (w : Width) (base : Reg) (disp imm : BitVec 32) : List Byte :=
  size16 w ++ rex (w = .w64) 0 base.number false ++ [if w = .w8 then 0x80 else 0x81] ++
  modrmMem op.number base disp ++ immOf w imm

def movMi (w : Width) (base : Reg) (disp imm : BitVec 32) : List Byte :=
  size16 w ++ rex (w = .w64) 0 base.number false ++ [if w = .w8 then 0xC6 else 0xC7] ++
  modrmMem 0 base disp ++ immOf w imm

def movzxM (src : Width) (dst base : Reg) (disp : BitVec 32) : List Byte :=
  if src = .w32 ∨ src = .w64 then
    rex false dst.number base.number false ++ [0x8B] ++ modrmMem dst.number base disp
  else rex true dst.number base.number false ++ [0x0F, if src = .w8 then 0xB6 else 0xB7] ++
    modrmMem dst.number base disp

/-- The slots are `inc`, `dec`, `not` and `neg`. -/
def unaryOpcode (slot : Byte) (w : Width) : Byte :=
  if slot ≤ 1 then (if w = .w8 then 0xFE else 0xFF) else if w = .w8 then 0xF6 else 0xF7

def unaryM (slot : Byte) (w : Width) (base : Reg) (disp : BitVec 32) : List Byte :=
  size16 w ++ rex (w = .w64) 0 base.number false ++ [unaryOpcode slot w] ++ modrmMem slot base disp

def unaryR (slot : Byte) (w : Width) (reg : Reg) : List Byte :=
  size16 w ++ rex (w = .w64) 0 reg.number (w = .w8 ∧ needsByteRex reg.number) ++
  [unaryOpcode slot w] ++ modrmReg slot reg.number

def pushM (base : Reg) (disp : BitVec 32) : List Byte :=
  rex false 0 base.number false ++ [0xFF] ++ modrmMem 6 base disp
def popM (base : Reg) (disp : BitVec 32) : List Byte :=
  rex false 0 base.number false ++ [0x8F] ++ modrmMem 0 base disp

/-! ## Spilled operands -/

def divM (base : Reg) (disp : BitVec 32) : List Byte :=
  rex true 0 base.number false ++ [0xF7] ++ modrmMem 6 base disp
def idivM (base : Reg) (disp : BitVec 32) : List Byte :=
  rex true 0 base.number false ++ [0xF7] ++ modrmMem 7 base disp
def imulRm (dst base : Reg) (disp : BitVec 32) : List Byte :=
  rex true dst.number base.number false ++ [0x0F, 0xAF] ++ modrmMem dst.number base disp
def sseArithM (opcode : Byte) (double : Bool) (dst : XReg) (base : Reg) (disp : BitVec 32) :
    List Byte := floatRm (scalar double) opcode (XReg.number dst) base disp
def ucomisM (double : Bool) (a : XReg) (base : Reg) (disp : BitVec 32) : List Byte :=
  floatRm (if double then [0x66] else []) 0x2E (XReg.number a) base disp

end Enc

/-! ## Calls -/

abbrev EncLabel := Nat

/-- A call of a method of the encoder. -/
inductive Call
  | makeLabel
  | bind (label : EncLabel)
  | movRi (dst : Reg) (imm : BitVec 64)
  | movRr (w : Width) (dst src : Reg)
  | load (w : Width) (dst base : Reg) (disp : BitVec 32)
  | store (w : Width) (base : Reg) (disp : BitVec 32) (src : Reg)
  | movzx (src : Width) (dst reg : Reg)
  | movsx (src : Width) (dst reg : Reg)
  | lea (dst base : Reg) (disp : BitVec 32)
  | leaRip (dst : Reg) (symbol : BitVec 32) (addend : BitVec 64)
  | aluRr (op : Alu) (w : Width) (dst src : Reg)
  | aluRi (op : Alu) (w : Width) (dst : Reg) (imm : BitVec 32)
  | imulRr (dst src : Reg)
  | cqo
  | zero (reg : Reg)
  | divR (src : Reg)
  | idivR (src : Reg)
  | negR (w : Width) (reg : Reg)
  | notR (w : Width) (reg : Reg)
  | shlCl (w : Width) (reg : Reg)
  | shrCl (w : Width) (reg : Reg)
  | sarCl (w : Width) (reg : Reg)
  | testRr (w : Width) (a b : Reg)
  | setcc (cond : Cond) (dst : Reg)
  | movssLoad (dst : XReg) (base : Reg) (disp : BitVec 32)
  | movssStore (base : Reg) (disp : BitVec 32) (src : XReg)
  | movsdLoad (dst : XReg) (base : Reg) (disp : BitVec 32)
  | movsdStore (base : Reg) (disp : BitVec 32) (src : XReg)
  | sseArith (opcode : Byte) (double : Bool) (dst src : XReg)
  | ucomis (double : Bool) (a b : XReg)
  | movaps (dst src : XReg)
  | cvtI2f (toDouble : Bool) (src : Width) (dst : XReg) (reg : Reg)
  | cvtF2i (fromDouble : Bool) (w : Width) (dst : Reg) (src : XReg)
  | cvtF2f (toDouble : Bool) (dst src : XReg)
  | movRX (dst : XReg) (src : Reg)
  | movXR (dst : Reg) (src : XReg)
  | jmp (target : EncLabel)
  | jcc (cond : Cond) (target : EncLabel)
  | callSym (symbol : BitVec 32)
  | callR (target : Reg)
  | ret
  | pushR (reg : Reg)
  | popR (reg : Reg)
  | subRsp (bytes : BitVec 32)
  | addRsp (bytes : BitVec 32)
  | ud2
  | nop
  | syscall
  | cpuid
  | aluRm (op : Alu) (w : Width) (dst base : Reg) (disp : BitVec 32)
  | aluMr (op : Alu) (w : Width) (base : Reg) (disp : BitVec 32) (src : Reg)
  | aluMi (op : Alu) (w : Width) (base : Reg) (disp imm : BitVec 32)
  | movMi (w : Width) (base : Reg) (disp imm : BitVec 32)
  | movzxM (src : Width) (dst base : Reg) (disp : BitVec 32)
  | unaryM (slot : Byte) (w : Width) (base : Reg) (disp : BitVec 32)
  | unaryR (slot : Byte) (w : Width) (reg : Reg)
  | pushM (base : Reg) (disp : BitVec 32)
  | popM (base : Reg) (disp : BitVec 32)
  | divM (base : Reg) (disp : BitVec 32)
  | idivM (base : Reg) (disp : BitVec 32)
  | imulRm (dst base : Reg) (disp : BitVec 32)
  | sseArithM (opcode : Byte) (double : Bool) (dst : XReg) (base : Reg) (disp : BitVec 32)
  | ucomisM (double : Bool) (a : XReg) (base : Reg) (disp : BitVec 32)
  deriving DecidableEq

/-- The bytes a call appends, where the field of a jump holds the given distance. -/
def Call.bytes (rel : BitVec 32) : Call → List Byte
  | .makeLabel => []
  | .bind _ => []
  | .movRi dst imm => Enc.movRi dst imm
  | .movRr w dst src => Enc.movRr w dst src
  | .load w dst base disp => Enc.load w dst base disp
  | .store w base disp src => Enc.store w base disp src
  | .movzx src dst reg => Enc.movzx src dst reg
  | .movsx src dst reg => Enc.movsx src dst reg
  | .lea dst base disp => Enc.lea dst base disp
  | .leaRip dst _ _ => Enc.leaRip dst
  | .aluRr op w dst src => Enc.aluRr op w dst src
  | .aluRi op w dst imm => Enc.aluRi op w dst imm
  | .imulRr dst src => Enc.imulRr dst src
  | .cqo => Enc.cqo
  | .zero reg => Enc.zero reg
  | .divR src => Enc.divR src
  | .idivR src => Enc.idivR src
  | .negR w reg => Enc.negR w reg
  | .notR w reg => Enc.notR w reg
  | .shlCl w reg => Enc.shlCl w reg
  | .shrCl w reg => Enc.shrCl w reg
  | .sarCl w reg => Enc.sarCl w reg
  | .testRr w a b => Enc.testRr w a b
  | .setcc cond dst => Enc.setcc cond dst
  | .movssLoad dst base disp => Enc.movssLoad dst base disp
  | .movssStore base disp src => Enc.movssStore base disp src
  | .movsdLoad dst base disp => Enc.movsdLoad dst base disp
  | .movsdStore base disp src => Enc.movsdStore base disp src
  | .sseArith opcode double dst src => Enc.sseArith opcode double dst src
  | .ucomis double a b => Enc.ucomis double a b
  | .movaps dst src => Enc.movaps dst src
  | .cvtI2f toDouble src dst reg => Enc.cvtI2f toDouble src dst reg
  | .cvtF2i fromDouble w dst src => Enc.cvtF2i fromDouble w dst src
  | .cvtF2f toDouble dst src => Enc.cvtF2f toDouble dst src
  | .movRX dst src => Enc.movRX dst src
  | .movXR dst src => Enc.movXR dst src
  | .jmp _ => Enc.jmp rel
  | .jcc cond _ => Enc.jcc cond rel
  | .callSym _ => Enc.callSym
  | .callR target => Enc.callR target
  | .ret => Enc.ret
  | .pushR reg => Enc.pushR reg
  | .popR reg => Enc.popR reg
  | .subRsp n => Enc.subRsp n
  | .addRsp n => Enc.addRsp n
  | .ud2 => Enc.ud2
  | .nop => Enc.nop
  | .syscall => Enc.syscall
  | .cpuid => Enc.cpuid
  | .aluRm op w dst base disp => Enc.aluRm op w dst base disp
  | .aluMr op w base disp src => Enc.aluMr op w base disp src
  | .aluMi op w base disp imm => Enc.aluMi op w base disp imm
  | .movMi w base disp imm => Enc.movMi w base disp imm
  | .movzxM src dst base disp => Enc.movzxM src dst base disp
  | .unaryM slot w base disp => Enc.unaryM slot w base disp
  | .unaryR slot w reg => Enc.unaryR slot w reg
  | .pushM base disp => Enc.pushM base disp
  | .popM base disp => Enc.popM base disp
  | .divM base disp => Enc.divM base disp
  | .idivM base disp => Enc.idivM base disp
  | .imulRm dst base disp => Enc.imulRm dst base disp
  | .sseArithM opcode double dst base disp => Enc.sseArithM opcode double dst base disp
  | .ucomisM double a base disp => Enc.ucomisM double a base disp

/-! ## The state -/

inductive RelocKind
  | call32 | rip32
  deriving DecidableEq

/-- A field the linker fills in. -/
structure Relocation where
  kind : RelocKind
  offset : BitVec 32
  symbol : BitVec 32
  addend : BitVec 64
  deriving DecidableEq

structure PendingJump where
  patchOffset : BitVec 32
  target : EncLabel
  deriving DecidableEq

structure Encoder where
  code : List Byte := []
  relocations : List Relocation := []
  /-- The offset of each label; the largest number is for one that is not bound. -/
  labels : List (BitVec 32) := []
  pending : List PendingJump := []
  deriving DecidableEq

def unbound : BitVec 32 := 0xFFFFFFFF

/-- The offset of the field that ends the code of a call, when the call is made at `offset`. -/
def fieldOffset (offset : Nat) (call : Call) : BitVec 32 :=
  BitVec.ofNat 32 (offset + (call.bytes 0).length - 4)

/-- A call. Jumps, direct calls and RIP-relative addresses end in a 32-bit field. -/
def Encoder.call (e : Encoder) (call : Call) : Encoder :=
  let field := fieldOffset e.code.length call
  { code := e.code ++ call.bytes 0
    relocations := match call with
      | .leaRip _ symbol addend => e.relocations ++ [⟨.rip32, field, symbol, addend⟩]
      | .callSym symbol => e.relocations ++ [⟨.call32, field, symbol, -4⟩]
      | _ => e.relocations
    labels := match call with
      | .makeLabel => e.labels ++ [unbound]
      | .bind label => e.labels.set label (BitVec.ofNat 32 e.code.length)
      | _ => e.labels
    pending := match call with
      | .jmp target => e.pending ++ [⟨field, target⟩]
      | .jcc _ target => e.pending ++ [⟨field, target⟩]
      | _ => e.pending }

def Encoder.run (e : Encoder) (calls : List Call) : Encoder := calls.foldl Encoder.call e

/-- Four bytes of the code, replaced. -/
def patch (code : List Byte) (offset : Nat) (value : BitVec 32) : List Byte :=
  (List.range 4).foldl (fun code i =>
    code.set (offset + i) ((value.sshiftRight (8 * i)).setWidth 8)) code

/-- Patch every jump. The source asserts that the targets are bound. -/
def Encoder.resolveLabels (e : Encoder) : Encoder :=
  { e with
    code := e.pending.foldl (fun code jump =>
      patch code jump.patchOffset.toNat
        (e.labels.getD jump.target unbound - (jump.patchOffset + 4))) e.code
    pending := [] }

end Mirage.X86
