import Mirage.Mir.Basic
import Mirage.Lib.Memory

/-!
# The x86-64 machine

The instructions the encoder has a method for (`Instr`, one constructor for
each method, the labels of a function included), and what the processor does
with them: a machine is the sixteen general registers, the low halves of the
sixteen XMM registers (all any template reads), the condition flags and the
memory.

What the processor manual leaves open, and the world outside the function, is an
`Env`: what a callee or a system call does to the machine, the result of
floating-point arithmetic, and the flags after an instruction that leaves them
undefined.

Code is a list of instructions. `exec` runs it from the front: a jump to a label
bound further on skips to it, and a jump to any other label leaves the list with
`Outcome.goto`, as the branches between the blocks of a function do.
`exec_append` runs a concatenation in two parts.
-/

namespace Mirage.X86

/-! ## Registers and instructions -/

/-- The general registers, in hardware encoding order. -/
inductive Reg
  | rax | rcx | rdx | rbx | rsp | rbp | rsi | rdi
  | r8 | r9 | r10 | r11 | r12 | r13 | r14 | r15
  deriving DecidableEq, Repr

/-- The XMM registers. -/
abbrev XReg := Fin 16

instance XReg.neZero : NeZero 16 := ⟨by decide⟩

/-- The register with a given encoding. -/
def Reg.ofFin (n : Fin 16) : Reg :=
  [Reg.rax, .rcx, .rdx, .rbx, .rsp, .rbp, .rsi, .rdi,
    .r8, .r9, .r10, .r11, .r12, .r13, .r14, .r15].getD n .rax

/-- The width of an operand. -/
inductive Width
  | w8 | w16 | w32 | w64
  deriving DecidableEq, Repr

def Width.bytes : Width → Nat
  | .w8 => 1
  | .w16 => 2
  | .w32 => 4
  | .w64 => 8

def Width.bits : Width → Nat
  | .w8 => 8
  | .w16 => 16
  | .w32 => 32
  | .w64 => 64

/-- The conditions of `setcc` and `jcc`. -/
inductive Cond
  | e | ne | l | le | g | ge | b | be | a | ae | p | np
  deriving DecidableEq, Repr

/-- The operations of the classic ALU encoding family. -/
inductive Alu
  | add | or | and | sub | xor | cmp
  deriving DecidableEq, Repr

/-- The labels of a function: one for each block, and the two of a `select`. -/
inductive Label
  | block (b : BlockId)
  | skip (index : Nat)
  | done (index : Nat)
  deriving DecidableEq, Repr

/-- The target of a direct call: a function of the module or a libc symbol. -/
inductive Symbol
  | function (f : Nat)
  | global (g : Nat)
  | memcpy | memset | fmod | fmodf
  deriving DecidableEq, Repr

/-- The instructions, one for each method of the encoder. -/
inductive Instr
  | bind (label : Label)
  -- moves
  | movRi (dst : Reg) (imm : BitVec 64)
  | movRr (w : Width) (dst src : Reg)
  | load (w : Width) (dst base : Reg) (disp : Int)
  | store (w : Width) (base : Reg) (disp : Int) (src : Reg)
  | movzx (src : Width) (dst reg : Reg)
  | movsx (src : Width) (dst reg : Reg)
  | lea (dst base : Reg) (disp : Int)
  | leaRip (dst : Reg) (symbol : Symbol)
  -- integer arithmetic
  | aluRr (op : Alu) (w : Width) (dst src : Reg)
  | aluRi (op : Alu) (w : Width) (dst : Reg) (imm : BitVec 32)
  | imulRr (dst src : Reg)
  | cqo
  | zero (reg : Reg)
  | divR (src : Reg)
  | idivR (src : Reg)
  | negR (reg : Reg)
  | notR (reg : Reg)
  | shlCl (reg : Reg)
  | shrCl (reg : Reg)
  | sarCl (reg : Reg)
  | testRr (w : Width) (a b : Reg)
  | setcc (cond : Cond) (dst : Reg)
  -- scalar float
  | movssLoad (dst : XReg) (base : Reg) (disp : Int)
  | movssStore (base : Reg) (disp : Int) (src : XReg)
  | movsdLoad (dst : XReg) (base : Reg) (disp : Int)
  | movsdStore (base : Reg) (disp : Int) (src : XReg)
  | sseArith (opcode : Nat) (isDouble : Bool) (dst src : XReg)
  | ucomis (isDouble : Bool) (a b : XReg)
  | movaps (dst src : XReg)
  | cvtI2f (toDouble : Bool) (dst : XReg) (src : Reg)
  | cvtF2i (fromDouble : Bool) (dst : Reg) (src : XReg)
  | cvtF2f (toDouble : Bool) (dst src : XReg)
  | movRX (dst : XReg) (src : Reg)
  | movXR (dst : Reg) (src : XReg)
  -- control flow
  | jmp (target : Label)
  | jcc (cond : Cond) (target : Label)
  | callSym (symbol : Symbol)
  | callR (target : Reg)
  | ret
  | pushR (reg : Reg)
  | popR (reg : Reg)
  | subRsp (bytes : Int)
  | addRsp (bytes : Int)
  | ud2
  -- inline-asm support
  | nop
  | syscall
  | cpuid
  | aluRm (op : Alu) (w : Width) (dst base : Reg) (disp : Int)
  | aluMr (op : Alu) (w : Width) (base : Reg) (disp : Int) (src : Reg)
  | aluMi (op : Alu) (w : Width) (base : Reg) (disp : Int) (imm : BitVec 32)
  | movMi (w : Width) (base : Reg) (disp : Int) (imm : BitVec 32)
  | movzxM (src : Width) (dst base : Reg) (disp : Int)
  | unaryM (slot : Nat) (w : Width) (base : Reg) (disp : Int)
  | unaryR (slot : Nat) (w : Width) (reg : Reg)
  | pushM (base : Reg) (disp : Int)
  | popM (base : Reg) (disp : Int)
  -- spilled-operand folding
  | divM (base : Reg) (disp : Int)
  | idivM (base : Reg) (disp : Int)
  | imulRm (dst base : Reg) (disp : Int)
  | sseArithM (opcode : Nat) (isDouble : Bool) (dst : XReg) (base : Reg) (disp : Int)
  | ucomisM (isDouble : Bool) (a : XReg) (base : Reg) (disp : Int)
  deriving DecidableEq, Repr

/-! ## Machines -/

/-- The condition flags. -/
structure Flags where
  zf : Bool
  sf : Bool
  cf : Bool
  of : Bool
  pf : Bool
  deriving DecidableEq, Repr

def Cond.holds (c : Cond) (f : Flags) : Bool :=
  match c with
  | .e => f.zf
  | .ne => !f.zf
  | .l => f.sf != f.of
  | .le => f.zf || f.sf != f.of
  | .g => !f.zf && f.sf == f.of
  | .ge => f.sf == f.of
  | .b => f.cf
  | .be => f.cf || f.zf
  | .a => !f.cf && !f.zf
  | .ae => !f.cf
  | .p => f.pf
  | .np => !f.pf

structure Machine where
  gpr : Reg → BitVec 64
  xmm : XReg → BitVec 64
  flags : Flags
  mem : Mem

namespace Machine

/-- The register `r` holding `v`, all of it. -/
def setGpr (m : Machine) (r : Reg) (v : BitVec 64) : Machine :=
  { m with gpr := fun r' => if r' = r then v else m.gpr r' }

def setXmm (m : Machine) (x : XReg) (v : BitVec 64) : Machine :=
  { m with xmm := fun x' => if x' = x then v else m.xmm x' }

def setFlags (m : Machine) (f : Flags) : Machine := { m with flags := f }

def setMem (m : Machine) (mem : Mem) : Machine := { m with mem := mem }

/-- The address `[base + disp]`. -/
def addr (m : Machine) (base : Reg) (disp : Int) : BitVec 64 := m.gpr base + BitVec.ofInt 64 disp

@[simp] theorem setGpr_gpr (m : Machine) (r : Reg) (v : BitVec 64) (r' : Reg) :
    (m.setGpr r v).gpr r' = if r' = r then v else m.gpr r' := rfl
@[simp] theorem setGpr_xmm (m : Machine) (r : Reg) (v : BitVec 64) :
    (m.setGpr r v).xmm = m.xmm := rfl
@[simp] theorem setGpr_flags (m : Machine) (r : Reg) (v : BitVec 64) :
    (m.setGpr r v).flags = m.flags := rfl
@[simp] theorem setGpr_mem (m : Machine) (r : Reg) (v : BitVec 64) :
    (m.setGpr r v).mem = m.mem := rfl
@[simp] theorem setXmm_gpr (m : Machine) (x : XReg) (v : BitVec 64) :
    (m.setXmm x v).gpr = m.gpr := rfl
@[simp] theorem setXmm_xmm (m : Machine) (x : XReg) (v : BitVec 64) (x' : XReg) :
    (m.setXmm x v).xmm x' = if x' = x then v else m.xmm x' := rfl
@[simp] theorem setXmm_flags (m : Machine) (x : XReg) (v : BitVec 64) :
    (m.setXmm x v).flags = m.flags := rfl
@[simp] theorem setXmm_mem (m : Machine) (x : XReg) (v : BitVec 64) :
    (m.setXmm x v).mem = m.mem := rfl
@[simp] theorem setFlags_gpr (m : Machine) (f : Flags) : (m.setFlags f).gpr = m.gpr := rfl
@[simp] theorem setFlags_xmm (m : Machine) (f : Flags) : (m.setFlags f).xmm = m.xmm := rfl
@[simp] theorem setFlags_flags (m : Machine) (f : Flags) : (m.setFlags f).flags = f := rfl
@[simp] theorem setFlags_mem (m : Machine) (f : Flags) : (m.setFlags f).mem = m.mem := rfl
@[simp] theorem setMem_gpr (m : Machine) (mem : Mem) : (m.setMem mem).gpr = m.gpr := rfl
@[simp] theorem setMem_xmm (m : Machine) (mem : Mem) : (m.setMem mem).xmm = m.xmm := rfl
@[simp] theorem setMem_flags (m : Machine) (mem : Mem) : (m.setMem mem).flags = m.flags := rfl
@[simp] theorem setMem_mem (m : Machine) (mem : Mem) : (m.setMem mem).mem = mem := rfl

end Machine

/-- Writing `v` at a width: 32-bit writes clear the upper half, narrower ones keep
    the upper bits. -/
def mergeWidth (w : Width) (old v : BitVec 64) : BitVec 64 :=
  match w with
  | .w64 => v
  | .w32 => (v.setWidth 32).setWidth 64
  | .w16 => (old &&& ~~~0xFFFF#64) ||| (v &&& 0xFFFF#64)
  | .w8 => (old &&& ~~~0xFF#64) ||| (v &&& 0xFF#64)

/-- The low bits of `v` at a width, zero-extended. -/
def zeroExtend (w : Width) (v : BitVec 64) : BitVec 64 := (v.setWidth w.bits).setWidth 64

/-- The low bits of `v` at a width, sign-extended. -/
def signExtend (w : Width) (v : BitVec 64) : BitVec 64 := (v.setWidth w.bits).signExtend 64

def Alu.apply (op : Alu) {n : Nat} (x y : BitVec n) : BitVec n :=
  match op with
  | .add => x + y
  | .or => x ||| y
  | .and => x &&& y
  | .sub | .cmp => x - y
  | .xor => x ^^^ y

/-- Whether the low byte has an even number of ones. -/
def parity {n : Nat} (x : BitVec n) : Bool :=
  !((List.range 8).foldl (fun p i => p ^^ x.getLsbD i) false)

/-- The flags of an ALU operation on `n`-bit operands. -/
def Alu.flags (op : Alu) {n : Nat} (x y : BitVec n) : Flags :=
  let r := op.apply x y
  { zf := r == 0
    sf := r.msb
    cf := match op with
      | .add => decide (2 ^ n ≤ x.toNat + y.toNat)
      | .sub | .cmp => decide (x.toNat < y.toNat)
      | _ => false
    of := match op with
      | .add => x.msb == y.msb && r.msb != x.msb
      | .sub | .cmp => x.msb != y.msb && r.msb != x.msb
      | _ => false
    pf := parity r }

/-- What lies outside: callees and the kernel, floating-point arithmetic, and
    the flags an instruction leaves undefined. -/
structure Env where
  /-- The machine after a call to a symbol or to an address has returned. -/
  call : Symbol ⊕ BitVec 64 → Machine → Machine
  syscall : Machine → Machine
  cpuid : Machine → Machine
  undefFlags : Machine → Flags
  symbol : Symbol → BitVec 64
  sse : Nat → Bool → BitVec 64 → BitVec 64 → BitVec 64
  ucomis : Bool → BitVec 64 → BitVec 64 → Flags
  i2f : Bool → BitVec 64 → BitVec 64 → BitVec 64
  f2i : Bool → BitVec 64 → BitVec 64
  f2f : Bool → BitVec 64 → BitVec 64 → BitVec 64

/-- Unsigned division of `rdx:rax`: the quotient and the remainder, unless the
    processor faults. -/
def divide (hi lo d : BitVec 64) : Option (BitVec 64 × BitVec 64) :=
  let n := hi.toNat * 2 ^ 64 + lo.toNat
  if d.toNat = 0 ∨ 2 ^ 64 ≤ n / d.toNat then none
  else some (BitVec.ofNat 64 (n / d.toNat), BitVec.ofNat 64 (n % d.toNat))

/-- Signed division of `rdx:rax`. -/
def idivide (hi lo d : BitVec 64) : Option (BitVec 64 × BitVec 64) :=
  let n := hi.toInt * 2 ^ 64 + lo.toNat
  if d.toInt = 0 ∨ n.tdiv d.toInt < -2 ^ 63 ∨ 2 ^ 63 ≤ n.tdiv d.toInt then none
  else some (BitVec.ofInt 64 (n.tdiv d.toInt), BitVec.ofInt 64 (n.tmod d.toInt))

/-! ## Execution -/

section Exec

variable (env : Env)

/-- The quotient in `rax`, the remainder in `rdx`. -/
def Machine.setDiv (m : Machine) (qr : BitVec 64 × BitVec 64) : Machine :=
  ((m.setGpr .rax qr.1).setGpr .rdx qr.2).setFlags (env.undefFlags m)

/-- An ALU operation into a register. -/
def Machine.alu (m : Machine) (op : Alu) (w : Width) (dst : Reg) (y : BitVec 64) : Machine :=
  let x := (m.gpr dst).setWidth w.bits
  let y := y.setWidth w.bits
  let m' := m.setFlags (op.flags x y)
  if op = .cmp then m' else m'.setGpr dst (mergeWidth w (m.gpr dst) ((op.apply x y).setWidth 64))

/-- An ALU operation into memory. -/
def Machine.aluMem (m : Machine) (op : Alu) (w : Width) (a : BitVec 64) (y : BitVec 64) : Machine :=
  let x := (m.mem.read a w.bytes).setWidth w.bits
  let y := y.setWidth w.bits
  let m' := m.setFlags (op.flags x y)
  if op = .cmp then m' else m'.setMem (m.mem.write a w.bytes ((op.apply x y).setWidth 64))

/-- `inc`, `dec`, `not`, `neg`, by their opcode digit. -/
def unaryOp (slot : Nat) (v : BitVec 64) : BitVec 64 :=
  match slot with
  | 0 => v + 1
  | 1 => v - 1
  | 2 => ~~~v
  | _ => -v

def Machine.push (m : Machine) (v : BitVec 64) : Machine :=
  (m.setGpr .rsp (m.gpr .rsp - 8)).setMem (m.mem.write (m.gpr .rsp - 8) 8 v)

/-- One instruction, control flow apart; `none` when the processor faults. -/
def Instr.run (i : Instr) (m : Machine) : Option Machine :=
  match i with
  | .bind _ | .jmp _ | .jcc _ _ | .ret | .ud2 | .nop => some m
  | .movRi dst imm => some (m.setGpr dst imm)
  | .movRr w dst src => some (m.setGpr dst (mergeWidth w (m.gpr dst) (m.gpr src)))
  | .load w dst base disp =>
    some (m.setGpr dst (mergeWidth w (m.gpr dst) (m.mem.read (m.addr base disp) w.bytes)))
  | .store w base disp src => some (m.setMem (m.mem.write (m.addr base disp) w.bytes (m.gpr src)))
  -- the 64-bit forms have no encoding of their own: they come out as the 16-bit ones
  | .movzx w dst src =>
    some (m.setGpr dst (zeroExtend (if w = .w64 then .w16 else w) (m.gpr src)))
  | .movsx w dst src =>
    some (m.setGpr dst (signExtend (if w = .w64 then .w16 else w) (m.gpr src)))
  | .lea dst base disp => some (m.setGpr dst (m.addr base disp))
  | .leaRip dst symbol => some (m.setGpr dst (env.symbol symbol))
  | .aluRr op w dst src => some (m.alu op w dst (m.gpr src))
  | .aluRi op w dst imm => some (m.alu op w dst (imm.signExtend 64))
  | .aluRm op w dst base disp => some (m.alu op w dst (m.mem.read (m.addr base disp) w.bytes))
  | .aluMr op w base disp src => some (m.aluMem op w (m.addr base disp) (m.gpr src))
  | .aluMi op w base disp imm => some (m.aluMem op w (m.addr base disp) (imm.signExtend 64))
  | .movMi w base disp imm =>
    some (m.setMem (m.mem.write (m.addr base disp) w.bytes (imm.signExtend 64)))
  | .movzxM w dst base disp =>
    some (m.setGpr dst (m.mem.read (m.addr base disp) (if w = .w64 then 4 else w.bytes)))
  | .imulRr dst src =>
    some ((m.setGpr dst (m.gpr dst * m.gpr src)).setFlags (env.undefFlags m))
  | .imulRm dst base disp =>
    some ((m.setGpr dst (m.gpr dst * m.mem.read (m.addr base disp) 8)).setFlags (env.undefFlags m))
  | .cqo => some (m.setGpr .rdx (if (m.gpr .rax).msb then BitVec.allOnes 64 else 0))
  | .zero reg => some ((m.setGpr reg 0).setFlags (Alu.flags .xor (0 : BitVec 32) 0))
  | .divR src => (divide (m.gpr .rdx) (m.gpr .rax) (m.gpr src)).map (m.setDiv env)
  | .divM base disp =>
    (divide (m.gpr .rdx) (m.gpr .rax) (m.mem.read (m.addr base disp) 8)).map (m.setDiv env)
  | .idivR src => (idivide (m.gpr .rdx) (m.gpr .rax) (m.gpr src)).map (m.setDiv env)
  | .idivM base disp =>
    (idivide (m.gpr .rdx) (m.gpr .rax) (m.mem.read (m.addr base disp) 8)).map (m.setDiv env)
  | .negR reg =>
    some ((m.setGpr reg (-m.gpr reg)).setFlags (Alu.flags .sub 0 (m.gpr reg)))
  | .notR reg => some (m.setGpr reg (~~~m.gpr reg))
  -- a 64-bit shift takes its count modulo 64
  | .shlCl reg =>
    some ((m.setGpr reg (m.gpr reg <<< ((m.gpr .rcx).toNat % 64))).setFlags (env.undefFlags m))
  | .shrCl reg =>
    some ((m.setGpr reg (m.gpr reg >>> ((m.gpr .rcx).toNat % 64))).setFlags (env.undefFlags m))
  | .sarCl reg =>
    some ((m.setGpr reg ((m.gpr reg).sshiftRight ((m.gpr .rcx).toNat % 64))).setFlags
      (env.undefFlags m))
  -- and the 16-bit `test` comes out as the 32-bit one
  | .testRr w a b =>
    let n := if w = .w16 then 32 else w.bits
    some (m.setFlags (Alu.flags .and ((m.gpr a).setWidth n) ((m.gpr b).setWidth n)))
  | .setcc c dst =>
    some (m.setGpr dst (mergeWidth .w8 (m.gpr dst) (if c.holds m.flags then 1 else 0)))
  | .movssLoad dst base disp => some (m.setXmm dst (m.mem.read (m.addr base disp) 4))
  | .movssStore base disp src => some (m.setMem (m.mem.write (m.addr base disp) 4 (m.xmm src)))
  | .movsdLoad dst base disp => some (m.setXmm dst (m.mem.read (m.addr base disp) 8))
  | .movsdStore base disp src => some (m.setMem (m.mem.write (m.addr base disp) 8 (m.xmm src)))
  | .sseArith opcode dbl dst src =>
    some (m.setXmm dst (env.sse opcode dbl (m.xmm dst) (m.xmm src)))
  | .sseArithM opcode dbl dst base disp =>
    some (m.setXmm dst (env.sse opcode dbl (m.xmm dst)
      (m.mem.read (m.addr base disp) (if dbl then 8 else 4))))
  | .ucomis dbl a b => some (m.setFlags (env.ucomis dbl (m.xmm a) (m.xmm b)))
  | .ucomisM dbl a base disp =>
    some (m.setFlags (env.ucomis dbl (m.xmm a)
      (m.mem.read (m.addr base disp) (if dbl then 8 else 4))))
  | .movaps dst src => some (m.setXmm dst (m.xmm src))
  | .cvtI2f dbl dst src => some (m.setXmm dst (env.i2f dbl (m.xmm dst) (m.gpr src)))
  | .cvtF2i dbl dst src => some (m.setGpr dst (env.f2i dbl (m.xmm src)))
  | .cvtF2f dbl dst src => some (m.setXmm dst (env.f2f dbl (m.xmm dst) (m.xmm src)))
  | .movRX dst src => some (m.setXmm dst (m.gpr src))
  | .movXR dst src => some (m.setGpr dst (m.xmm src))
  | .callSym symbol => some (env.call (.inl symbol) m)
  | .callR target => some (env.call (.inr (m.gpr target)) m)
  | .pushR reg => some (m.push (m.gpr reg))
  | .popR reg =>
    some ((m.setGpr .rsp (m.gpr .rsp + 8)).setGpr reg (m.mem.read (m.gpr .rsp) 8))
  | .pushM base disp => some (m.push (m.mem.read (m.addr base disp) 8))
  | .popM base disp =>
    some ((m.setGpr .rsp (m.gpr .rsp + 8)).setMem
      (m.mem.write (m.addr base disp) 8 (m.mem.read (m.gpr .rsp) 8)))
  | .subRsp bytes => some (m.alu .sub .w64 .rsp (BitVec.ofInt 64 bytes))
  | .addRsp bytes => some (m.alu .add .w64 .rsp (BitVec.ofInt 64 bytes))
  | .syscall => some (env.syscall m)
  | .cpuid => some (env.cpuid m)
  | .unaryR slot w reg =>
    some ((m.setGpr reg (mergeWidth w (m.gpr reg) (unaryOp slot (m.gpr reg)))).setFlags
      (env.undefFlags m))
  | .unaryM slot w base disp =>
    some ((m.setMem (m.mem.write (m.addr base disp) w.bytes
      (unaryOp slot (m.mem.read (m.addr base disp) w.bytes)))).setFlags (env.undefFlags m))

/-- How a piece of code ends: it falls through, branches to a label it does not
    bind, returns, or faults. -/
inductive Outcome
  | next (m : Machine)
  | goto (l : Label) (m : Machine)
  | ret (m : Machine)
  | fault

/-- The instruction binds the label. -/
def Instr.binds (i : Instr) (l : Label) : Bool :=
  match i with
  | .bind l' => l' = l
  | _ => false

/-- Where an instruction sends control. -/
inductive Control
  | straight
  | jmp (l : Label)
  | jcc (c : Cond) (l : Label)
  | ret
  | ud2

def Instr.control (i : Instr) : Control :=
  match i with
  | .jmp l => .jmp l
  | .jcc c l => .jcc c l
  | .ret => .ret
  | .ud2 => .ud2
  | _ => .straight

/-- Running code. The first argument is the label a taken branch is looking for,
    if any: instructions are skipped until it is bound. -/
def execFrom : Option Label → List Instr → Machine → Outcome
  | none, [], m => .next m
  | some l, [], m => .goto l m
  | some l, i :: code, m => execFrom (if i.binds l then none else some l) code m
  | none, i :: code, m =>
    match i.control with
    | .jmp l => execFrom (some l) code m
    | .jcc c l => execFrom (if c.holds m.flags then some l else none) code m
    | .ret => .ret m
    | .ud2 => .fault
    | .straight =>
      match i.run env m with
      | some m' => execFrom none code m'
      | none => .fault

/-- Running code from its first instruction. -/
def exec (code : List Instr) (m : Machine) : Outcome := execFrom env none code m

/-- Going on with `code` after an outcome. -/
def Outcome.andThen (o : Outcome) (code : List Instr) : Outcome :=
  match o with
  | .next m => execFrom env none code m
  | .goto l m => execFrom env (some l) code m
  | .ret m => .ret m
  | .fault => .fault

theorem execFrom_append (l : Option Label) (c₁ c₂ : List Instr) (m : Machine) :
    execFrom env l (c₁ ++ c₂) m = (execFrom env l c₁ m).andThen env c₂ := by
  induction c₁ generalizing l m with
  | nil => cases l <;> rfl
  | cons i c ih =>
    cases l with
    | some l => simp only [List.cons_append, execFrom]; exact ih _ _
    | none =>
      simp only [List.cons_append, execFrom]
      cases i.control with
      | jmp l => exact ih _ _
      | jcc cc l => exact ih _ _
      | ret => rfl
      | ud2 => rfl
      | straight =>
        cases i.run env m with
        | none => rfl
        | some m' => exact ih _ _

/-- A concatenation runs its first part, then its second one. -/
theorem exec_append (c₁ c₂ : List Instr) (m : Machine) :
    exec env (c₁ ++ c₂) m = (exec env c₁ m).andThen env c₂ :=
  execFrom_append env none c₁ c₂ m

@[simp] theorem exec_nil (m : Machine) : exec env [] m = .next m := rfl

/-- Instructions that are not branches run one by one. -/
theorem exec_cons {i : Instr} {m m' : Machine} (hi : i.control = .straight)
    (h : i.run env m = some m') (code : List Instr) :
    exec env (i :: code) m = exec env code m' := by
  simp only [exec, execFrom, hi, h]

/-- Code that falls through is followed by what comes after it. -/
theorem exec_append_of_next {c₁ c₂ : List Instr} {m m' : Machine} (h : exec env c₁ m = .next m') :
    exec env (c₁ ++ c₂) m = exec env c₂ m' := by
  rw [exec_append, h]; rfl

/-- A branch skips code that does not bind its label. -/
theorem execFrom_skip {l : Label} {c₁ : List Instr} (h : ∀ i ∈ c₁, i.binds l = false)
    (c₂ : List Instr) (m : Machine) :
    execFrom env (some l) (c₁ ++ c₂) m = execFrom env (some l) c₂ m := by
  induction c₁ with
  | nil => rfl
  | cons i c ih =>
    rw [List.cons_append, execFrom, h i List.mem_cons_self]
    exact ih fun j hj => h j (List.mem_cons_of_mem i hj)

/-- Code that faults is followed by nothing. -/
theorem exec_append_of_fault {c₁ : List Instr} {m : Machine} (h : exec env c₁ m = .fault)
    (c₂ : List Instr) : exec env (c₁ ++ c₂) m = .fault := by
  rw [exec_append, h]; rfl

end Exec

/-! ## The registers an instruction writes -/

/-- The registers a callee may change under System V. -/
def callerSavedGprs : List Reg := [.rax, .rcx, .rdx, .rsi, .rdi, .r8, .r9, .r10, .r11]

/-- The general registers an instruction may change. -/
def Instr.writes : Instr → List Reg
  | .movRi dst _ | .movRr _ dst _ | .load _ dst _ _ | .movzx _ dst _ | .movsx _ dst _
  | .lea dst _ _ | .leaRip dst _ | .imulRr dst _ | .zero dst | .negR dst | .notR dst
  | .shlCl dst | .shrCl dst | .sarCl dst | .setcc _ dst | .cvtF2i _ dst _ | .movXR dst _
  | .movzxM _ dst _ _ | .unaryR _ _ dst | .imulRm dst _ _ => [dst]
  | .aluRr op _ dst _ | .aluRi op _ dst _ | .aluRm op _ dst _ _ => if op = .cmp then [] else [dst]
  | .cqo => [.rdx]
  | .divR _ | .idivR _ | .divM _ _ | .idivM _ _ => [.rax, .rdx]
  | .callSym _ | .callR _ => callerSavedGprs
  | .pushR _ | .pushM _ _ | .popM _ _ | .subRsp _ | .addRsp _ => [.rsp]
  | .popR dst => [dst, .rsp]
  | .syscall => [.rax, .rcx, .r11]
  | .cpuid => [.rax, .rbx, .rcx, .rdx]
  | _ => []

/-- What is documented of the world outside: a callee keeps the registers System V
    says it keeps, a system call and `cpuid` change the registers they say they
    change. -/
structure Env.Lawful (env : Env) : Prop where
  call : ∀ target m r, r ∉ callerSavedGprs → (env.call target m).gpr r = m.gpr r
  syscall : ∀ m r, r ∉ [Reg.rax, .rcx, .r11] → (env.syscall m).gpr r = m.gpr r
  cpuid : ∀ m r, r ∉ [Reg.rax, .rbx, .rcx, .rdx] → (env.cpuid m).gpr r = m.gpr r

end Mirage.X86
