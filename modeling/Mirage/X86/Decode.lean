import Mirage.X86.Machine

/-!
# Decoding x86-64

The instruction format of x86-64, as far as the instructions of `Decoded` go: legacy
prefixes, an optional REX prefix, an opcode of one byte or of two bytes from `0F`, a ModRM
byte with an optional SIB byte and a displacement, and an immediate.

* `prefixes`: `66` selects 16-bit operands or, like `F2` and `F3`, one of several SSE
  instructions; REX selects 64-bit operands and extends three register fields by a bit. Any
  REX prefix changes what byte registers 4 to 7 are.
* `modrm`: a register, or an address.
* `oneByte`, `twoByte`: what an opcode means, and what follows it (`Form`).
* `decode`: one instruction; `decodeAll`: a piece of code, in which the target of a jump
  is an offset from the start.
-/

namespace Mirage.X86

abbrev Byte := BitVec 8

/-! ## Instructions -/

/-- The base of an address. -/
inductive Base
  | none
  | reg (r : Reg)
  | rip
  deriving DecidableEq

/-- An address: base, index with its scale, displacement. -/
structure Address where
  base : Base
  index : Option (Reg × BitVec 2) := none
  disp : BitVec 32
  deriving DecidableEq

inductive InstOperand
  | gpr (w : Width) (r : Reg)
  /-- `AH`, `CH`, `DH`, `BH`. -/
  | high (n : Fin 4)
  | xmm (x : XReg)
  | mem (w : Width) (a : Address)
  | addr (a : Address)
  /-- An immediate, sign-extended from the width it has in the code. -/
  | imm (v : BitVec 64)
  /-- The distance from the end of the instruction. -/
  | rel (d : BitVec 64)
  | target (offset : Int)
  deriving DecidableEq

inductive Mnemonic
  | mov | movzx | movsx | lea
  | alu (op : Alu) | test | imul | cqo
  | inc | dec | not | neg | div | idiv
  | shl | shr | sar
  | set (c : Cond)
  | push | pop | call | ret | jmp | jcc (c : Cond)
  | ud2 | nop | syscall | cpuid
  | movs (double : Bool) | sse (opcode : Byte) (double : Bool) | ucomis (double : Bool) | movaps
  | cvtI2f (double : Bool) | cvtF2i (double : Bool) | cvtF2f (toDouble : Bool) | movq
  deriving DecidableEq

structure Decoded where
  mnemonic : Mnemonic
  operands : List InstOperand
  deriving DecidableEq

/-! ## Prefixes -/

structure Rex where
  w : Bool := false
  r : Bool := false
  x : Bool := false
  b : Bool := false
  deriving DecidableEq

/-- The prefixes of an instruction. -/
structure Prefixes where
  size16 : Bool := false
  /-- `F3`, or `F2` when true. -/
  rep : Option Bool := none
  rex : Option Rex := none
  deriving DecidableEq

def Prefixes.w (p : Prefixes) : Bool := (p.rex.getD {}).w
def Prefixes.r (p : Prefixes) : Bool := (p.rex.getD {}).r
def Prefixes.x (p : Prefixes) : Bool := (p.rex.getD {}).x
def Prefixes.b (p : Prefixes) : Bool := (p.rex.getD {}).b

/-- The width of the operands, where a byte operation has an opcode of its own. -/
def Prefixes.width (p : Prefixes) : Width :=
  if p.w then .w64 else if p.size16 then .w16 else .w32

/-- The width of `push` and `pop`, which need no REX prefix for 64 bits. -/
def Prefixes.stackWidth (p : Prefixes) : Width := if p.size16 ∧ p.w = false then .w16 else .w64

def isRex (b : Byte) : Bool := b &&& 0xF0 == 0x40

def rexOf (b : Byte) : Rex :=
  { w := b.getLsbD 3, r := b.getLsbD 2, x := b.getLsbD 1, b := b.getLsbD 0 }

/-- The prefixes, and the bytes from the opcode on. A REX prefix is the last one. -/
def prefixes (p : Prefixes) : List Byte → Prefixes × List Byte
  | [] => (p, [])
  | b :: bs =>
    if b = 0x66 then prefixes { p with size16 := true } bs
    else if b = 0xF2 then prefixes { p with rep := some true } bs
    else if b = 0xF3 then prefixes { p with rep := some false } bs
    else if isRex b then ({ p with rex := some (rexOf b) }, bs)
    else (p, b :: bs)

/-! ## Operands -/

/-- The number of a register, its highest bit from a REX prefix. -/
def extend4 (high : Bool) (low : BitVec 3) : Fin 16 := (BitVec.cons high low).toFin

/-- The general register of a number. Without a REX prefix the byte registers from 4 to 7
    are the second bytes of the first four. -/
def gprOperand (p : Prefixes) (w : Width) (n : Fin 16) : InstOperand :=
  if w = .w8 ∧ p.rex = none ∧ 4 ≤ n.val ∧ n.val < 8 then .high (Fin.ofNat 4 (n.val - 4))
  else .gpr w (Reg.ofFin n)

/-- What a ModRM byte selects besides the register field. -/
inductive Rm
  | reg (n : Fin 16)
  | mem (a : Address)
  deriving DecidableEq

def Rm.gpr (p : Prefixes) (w : Width) : Rm → InstOperand
  | .reg n => gprOperand p w n
  | .mem a => .mem w a

def Rm.xmm (w : Width) : Rm → InstOperand
  | .reg n => .xmm n
  | .mem a => .mem w a

/-- Little-endian bytes, sign-extended. -/
def imm8 : List Byte → Option (BitVec 64 × List Byte)
  | b0 :: bs => some (b0.signExtend 64, bs)
  | _ => none

def imm16 : List Byte → Option (BitVec 64 × List Byte)
  | b0 :: b1 :: bs => some ((b1 ++ b0).signExtend 64, bs)
  | _ => none

def disp32 : List Byte → Option (BitVec 32 × List Byte)
  | b0 :: b1 :: b2 :: b3 :: bs => some (b3 ++ b2 ++ b1 ++ b0, bs)
  | _ => none

def imm32 (bs : List Byte) : Option (BitVec 64 × List Byte) :=
  (disp32 bs).map fun (d, bs) => (d.signExtend 64, bs)

def imm64 : List Byte → Option (BitVec 64 × List Byte)
  | b0 :: b1 :: b2 :: b3 :: b4 :: b5 :: b6 :: b7 :: bs =>
    some (b7 ++ b6 ++ b5 ++ b4 ++ b3 ++ b2 ++ b1 ++ b0, bs)
  | _ => none

/-- The displacement of an address, by the `mod` field. -/
def displacement (mod : BitVec 2) (bs : List Byte) : Option (BitVec 32 × List Byte) :=
  if mod = 1 then (imm8 bs).map fun (d, bs) => (d.setWidth 32, bs)
  else if mod = 2 then disp32 bs
  else some (0, bs)

/-- A base without a register takes a 32-bit displacement. -/
def addressOf (mod : BitVec 2) (base : Base) (index : Option (Reg × BitVec 2)) (bs : List Byte) :
    Option (Address × List Byte) :=
  match base with
  | .reg r => (displacement mod bs).map fun (d, bs) => (⟨.reg r, index, d⟩, bs)
  | base => (disp32 bs).map fun (d, bs) => (⟨base, index, d⟩, bs)

/-- The SIB byte. Index 4 means none, and base 5 none when there is no displacement. -/
def sib (p : Prefixes) (mod : BitVec 2) : List Byte → Option (Address × List Byte)
  | [] => none
  | b :: bs =>
    let index := extend4 p.x (b.extractLsb' 3 3)
    let base := if mod = 0 ∧ b.extractLsb' 0 3 = 5 then Base.none
      else .reg (Reg.ofFin (extend4 p.b (b.extractLsb' 0 3)))
    addressOf mod base (if index = 4 then none else some (Reg.ofFin index, b.extractLsb' 6 2)) bs

/-- The ModRM byte and what follows it: the register field and the other operand. -/
def modrm (p : Prefixes) : List Byte → Option (Fin 16 × Rm × List Byte)
  | [] => none
  | b :: bs =>
    let mod := b.extractLsb' 6 2
    let reg := extend4 p.r (b.extractLsb' 3 3)
    let rm := b.extractLsb' 0 3
    if mod = 3 then some (reg, .reg (extend4 p.b rm), bs)
    else
      let address := if rm = 4 then sib p mod bs
        else addressOf mod (if mod = 0 ∧ rm = 5 then .rip else .reg (Reg.ofFin (extend4 p.b rm)))
          none bs
      address.map fun (a, bs) => (reg, .mem a, bs)

/-! ## Opcodes -/

/-- What follows an opcode. -/
inductive Form
  | plain (i : Decoded)
  | modrm (f : Fin 16 → Rm → Option Decoded)
  /-- ModRM and an immediate. -/
  | modrmImm (read : List Byte → Option (BitVec 64 × List Byte))
      (f : Fin 16 → Rm → BitVec 64 → Option Decoded)
  | imm (read : List Byte → Option (BitVec 64 × List Byte)) (f : BitVec 64 → Decoded)

def Form.decode (form : Form) (p : Prefixes) (bs : List Byte) : Option (Decoded × List Byte) :=
  match form with
  | .plain i => some (i, bs)
  | .modrm f => (X86.modrm p bs).bind fun (reg, rm, bs) => (f reg rm).map fun i => (i, bs)
  | .modrmImm read f => (X86.modrm p bs).bind fun (reg, rm, bs) =>
    (read bs).bind fun (v, bs) => (f reg rm v).map fun i => (i, bs)
  | .imm read f => (read bs).map fun (v, bs) => (f v, bs)

/-- The operation of the classic family, by its slot. -/
def aluOf (slot : BitVec 3) : Option Alu :=
  match slot.toNat with
  | 0 => some .add
  | 1 => some .or
  | 4 => some .and
  | 5 => some .sub
  | 6 => some .xor
  | 7 => some .cmp
  | _ => none

/-- The condition of the low nibble. -/
def condOf (n : BitVec 4) : Option Cond :=
  match n.toNat with
  | 2 => some .b
  | 3 => some .ae
  | 4 => some .e
  | 5 => some .ne
  | 6 => some .be
  | 7 => some .a
  | 10 => some .p
  | 11 => some .np
  | 12 => some .l
  | 13 => some .ge
  | 14 => some .le
  | 15 => some .g
  | _ => none

/-- The immediate of an operation: of its width, and at most 32 bits. -/
def immOf : Width → List Byte → Option (BitVec 64 × List Byte)
  | .w8 => imm8
  | .w16 => imm16
  | .w32 | .w64 => imm32

/-- The classic operations: to the other operand, from it, or none of these. -/
def classic (p : Prefixes) (opcode : Byte) : Option Form :=
  (aluOf (opcode.extractLsb' 3 3)).bind fun op =>
    let form := fun w toReg => Form.modrm fun reg rm => some <|
      if toReg then ⟨.alu op, [gprOperand p w reg, rm.gpr p w]⟩
      else ⟨.alu op, [rm.gpr p w, gprOperand p w reg]⟩
    match (opcode.extractLsb' 0 3).toNat with
    | 0 => some (form .w8 false)
    | 1 => some (form p.width false)
    | 2 => some (form .w8 true)
    | 3 => some (form p.width true)
    | _ => none

/-- An operation whose register field selects among several. -/
def unaryForm (p : Prefixes) (w : Width) (f : Nat → Option Mnemonic) : Form :=
  .modrm fun reg rm => (f (reg.val % 8)).map fun mnemonic => ⟨mnemonic, [rm.gpr p w]⟩

def groupF6 : Nat → Option Mnemonic
  | 2 => some .not
  | 3 => some .neg
  | 6 => some .div
  | 7 => some .idiv
  | _ => none

def groupFE : Nat → Option Mnemonic
  | 0 => some .inc
  | 1 => some .dec
  | _ => none

def groupD3 : Nat → Option Mnemonic
  | 4 => some .shl
  | 5 => some .shr
  | 7 => some .sar
  | _ => none

/-- The register of an opcode that has one in its low bits. -/
def opcodeReg (p : Prefixes) (opcode : Byte) : Reg :=
  Reg.ofFin (extend4 p.b (opcode.extractLsb' 0 3))

/-- The opcodes of one byte. -/
def oneByte (p : Prefixes) (opcode : Byte) : Option Form :=
  let w := p.width
  match opcode.toNat with
  | 0x63 => some (.modrm fun reg rm => some ⟨.movsx, [gprOperand p w reg, rm.gpr p .w32]⟩)
  | 0x80 => some (.modrmImm (immOf .w8) fun reg rm v =>
      (aluOf (BitVec.ofNat 3 reg.val)).map fun op => ⟨.alu op, [rm.gpr p .w8, .imm v]⟩)
  | 0x81 => some (.modrmImm (immOf w) fun reg rm v =>
      (aluOf (BitVec.ofNat 3 reg.val)).map fun op => ⟨.alu op, [rm.gpr p w, .imm v]⟩)
  | 0x84 => some (.modrm fun reg rm => some ⟨.test, [rm.gpr p .w8, gprOperand p .w8 reg]⟩)
  | 0x85 => some (.modrm fun reg rm => some ⟨.test, [rm.gpr p w, gprOperand p w reg]⟩)
  | 0x88 => some (.modrm fun reg rm => some ⟨.mov, [rm.gpr p .w8, gprOperand p .w8 reg]⟩)
  | 0x89 => some (.modrm fun reg rm => some ⟨.mov, [rm.gpr p w, gprOperand p w reg]⟩)
  | 0x8A => some (.modrm fun reg rm => some ⟨.mov, [gprOperand p .w8 reg, rm.gpr p .w8]⟩)
  | 0x8B => some (.modrm fun reg rm => some ⟨.mov, [gprOperand p w reg, rm.gpr p w]⟩)
  | 0x8D => some (.modrm fun reg rm =>
      match rm with
      | .mem a => some ⟨.lea, [gprOperand p w reg, .addr a]⟩
      | .reg _ => none)
  | 0x8F => some (unaryForm p p.stackWidth fun slot => if slot = 0 then some .pop else none)
  | 0x90 => if p.b = false ∧ p.rep = none then some (.plain ⟨.nop, []⟩) else none
  | 0x99 => if p.w then some (.plain ⟨.cqo, []⟩) else none
  | 0xC3 => some (.plain ⟨.ret, []⟩)
  | 0xC6 => some (.modrmImm (immOf .w8) fun reg rm v =>
      if reg.val % 8 = 0 then some ⟨.mov, [rm.gpr p .w8, .imm v]⟩ else none)
  | 0xC7 => some (.modrmImm (immOf w) fun reg rm v =>
      if reg.val % 8 = 0 then some ⟨.mov, [rm.gpr p w, .imm v]⟩ else none)
  | 0xD3 => some (unaryForm p w groupD3)
  | 0xE8 => some (.imm imm32 fun d => ⟨.call, [.rel d]⟩)
  | 0xE9 => some (.imm imm32 fun d => ⟨.jmp, [.rel d]⟩)
  | 0xF6 => some (unaryForm p .w8 groupF6)
  | 0xF7 => some (unaryForm p w groupF6)
  | 0xFE => some (unaryForm p .w8 groupFE)
  | 0xFF => some (.modrm fun reg rm =>
      match reg.val % 8 with
      | 2 => some ⟨.call, [rm.gpr p .w64]⟩
      | 6 => some ⟨.push, [rm.gpr p p.stackWidth]⟩
      | slot => (groupFE slot).map fun mnemonic => ⟨mnemonic, [rm.gpr p w]⟩)
  | _ =>
    match (opcode.extractLsb' 3 5).toNat with
    | 0b01010 => some (.plain ⟨.push, [.gpr p.stackWidth (opcodeReg p opcode)]⟩)
    | 0b01011 => some (.plain ⟨.pop, [.gpr p.stackWidth (opcodeReg p opcode)]⟩)
    | 0b10111 =>
      let dst := opcodeReg p opcode
      if p.w then some (.imm imm64 fun v => ⟨.mov, [.gpr .w64 dst, .imm v]⟩)
      else if p.size16 then some (.imm imm16 fun v => ⟨.mov, [.gpr .w16 dst, .imm v]⟩)
      else some (.imm imm32 fun v => ⟨.mov, [.gpr .w32 dst, .imm v]⟩)
    | _ => if opcode.extractLsb' 6 2 = 0 then classic p opcode else none

/-- The width of a scalar float. -/
def floatWidth (double : Bool) : Width := if double then .w64 else .w32

/-- The opcodes after `0F`. -/
def twoByte (p : Prefixes) (opcode : Byte) : Option Form :=
  let w := p.width
  match opcode.toNat with
  | 0x05 => some (.plain ⟨.syscall, []⟩)
  | 0x0B => some (.plain ⟨.ud2, []⟩)
  | 0x10 => p.rep.map fun double => .modrm fun reg rm =>
      some ⟨.movs double, [.xmm reg, rm.xmm (floatWidth double)]⟩
  | 0x11 => p.rep.map fun double => .modrm fun reg rm =>
      some ⟨.movs double, [rm.xmm (floatWidth double), .xmm reg]⟩
  | 0x28 => if p.rep = none ∧ p.size16 = false then some (.modrm fun reg rm =>
      match rm with
      | .reg n => some ⟨.movaps, [.xmm reg, .xmm n]⟩
      | .mem _ => none) else none
  | 0x2A => p.rep.map fun double => .modrm fun reg rm =>
      some ⟨.cvtI2f double, [.xmm reg, rm.gpr p (if p.w then .w64 else .w32)]⟩
  | 0x2C => p.rep.map fun double => .modrm fun reg rm => some ⟨.cvtF2i double,
      [gprOperand p (if p.w then .w64 else .w32) reg, rm.xmm (floatWidth double)]⟩
  | 0x2E => if p.rep = none then some (.modrm fun reg rm =>
      some ⟨.ucomis p.size16, [.xmm reg, rm.xmm (floatWidth p.size16)]⟩) else none
  | 0x58 | 0x59 | 0x5C | 0x5E => p.rep.map fun double => .modrm fun reg rm =>
      some ⟨.sse opcode double, [.xmm reg, rm.xmm (floatWidth double)]⟩
  | 0x5A => p.rep.map fun double => .modrm fun reg rm =>
      -- the prefix tells the source
      some ⟨.cvtF2f !double, [.xmm reg, rm.xmm (floatWidth double)]⟩
  | 0x6E => if p.size16 ∧ p.rep = none ∧ p.w then some (.modrm fun reg rm =>
      some ⟨.movq, [.xmm reg, rm.gpr p .w64]⟩) else none
  | 0x7E => if p.size16 ∧ p.rep = none ∧ p.w then some (.modrm fun reg rm =>
      some ⟨.movq, [rm.gpr p .w64, .xmm reg]⟩) else none
  | 0xA2 => some (.plain ⟨.cpuid, []⟩)
  | 0xAF => some (.modrm fun reg rm => some ⟨.imul, [gprOperand p w reg, rm.gpr p w]⟩)
  | 0xB6 => some (.modrm fun reg rm => some ⟨.movzx, [gprOperand p w reg, rm.gpr p .w8]⟩)
  | 0xB7 => some (.modrm fun reg rm => some ⟨.movzx, [gprOperand p w reg, rm.gpr p .w16]⟩)
  | 0xBE => some (.modrm fun reg rm => some ⟨.movsx, [gprOperand p w reg, rm.gpr p .w8]⟩)
  | 0xBF => some (.modrm fun reg rm => some ⟨.movsx, [gprOperand p w reg, rm.gpr p .w16]⟩)
  | _ =>
    match (opcode.extractLsb' 4 4).toNat with
    | 0x8 => (condOf (opcode.extractLsb' 0 4)).map fun c => .imm imm32 fun d => ⟨.jcc c, [.rel d]⟩
    | 0x9 => (condOf (opcode.extractLsb' 0 4)).map fun c =>
        .modrm fun _ rm => some ⟨.set c, [rm.gpr p .w8]⟩
    | _ => none

/-! ## Instructions one after the other -/

/-- The instruction at the front of the code, and the rest of the code. -/
def decode (bs : List Byte) : Option (Decoded × List Byte) :=
  match prefixes {} bs with
  | (_, []) => none
  | (p, opcode :: bs) =>
    if opcode = 0x0F then
      match bs with
      | [] => none
      | opcode :: bs => (twoByte p opcode).bind fun form => form.decode p bs
    else (oneByte p opcode).bind fun form => form.decode p bs

/-- A distance from the end of an instruction as an offset. -/
def Decoded.absolute (next : Nat) (i : Decoded) : Decoded :=
  { i with operands := i.operands.map fun operand =>
      match operand with
      | .rel d => .target (next + d.toInt)
      | operand => operand }

/-- At most so many instructions, from the given offset on. -/
def decodeFrom : Nat → Nat → List Byte → Option (List Decoded)
  | _, _, [] => some []
  | 0, _, _ :: _ => none
  | count + 1, offset, bs@(_ :: _) =>
    (decode bs).bind fun (i, rest) =>
      let next := offset + (bs.length - rest.length)
      (decodeFrom count next rest).map fun is => i.absolute next :: is

/-- All instructions of a piece of code. -/
def decodeAll (bs : List Byte) : Option (List Decoded) := decodeFrom bs.length 0 bs

end Mirage.X86
