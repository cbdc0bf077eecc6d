import Mirage.X86.Emit

/-!
# What an asm instruction means

The operands of an asm instruction stand for a register, a piece of the frame or a number
(`Place`), and the instruction for an operation on the machine at the width of its operands
(`meaning`): operands of two widths, a number that does not fit the width, or a number as
destination have no meaning. An emitted instruction *renders* it (`Renders`) when it does the
same to every machine.

`Carried` lists the forms the encoder carries over. It is exact: what the encoder emits for
an instruction renders it if and only if the form is `Carried` (`renders_iff`). It misses

* an immediate moved into a register of 8 or 16 bits, and a negative one into one of 32 bits:
  the move is always made at 64 bits;
* an immediate of an arithmetic operation or a store that is not the sign extension of 32 bits;
* `test` at 16 bits, which is encoded at 32 bits, and `movzx` into a 16-bit register;
* `lea`, `push` and `pop` at other widths than 64 bits, and `push` of an immediate, which
  pushes `rax`.
-/

namespace Mirage.X86

/-! ## Operands -/

/-- What an operand stands for. A number comes with the number that is stored for it: for a
    constant of the program, its bytes read as a signed number. -/
inductive Place
  | reg (r : Reg) (w : Width)
  | mem (disp : Int) (w : Width)
  | imm (value stored : Int)
  deriving DecidableEq

namespace Place

/-- The operand the encoder sees. -/
def arg : Place → AsmArg
  | .reg r w => { reg := r, width := w }
  | .mem disp w => { isMemory := true, disp, width := w }
  | .imm _ stored => { isImm := true, imm := BitVec.ofInt 64 stored }

/-- A register or a piece of the frame, with its width. -/
def width : Place → Option Width
  | .reg _ w | .mem _ w => some w
  | .imm _ _ => none

def read (m : Machine) : Place → BitVec 64
  | .reg r _ => m.gpr r
  | .mem disp w => m.mem.read (m.addr .rbp disp) w.bytes
  | .imm value _ => BitVec.ofInt 64 value

def write (m : Machine) (v : BitVec 64) : Place → Machine
  | .reg r w => m.setGpr r (mergeWidth w (m.gpr r) v)
  | .mem disp w => m.setMem (m.mem.write (m.addr .rbp disp) w.bytes v)
  | .imm _ _ => m

end Place

/-- The number is a signed or an unsigned number of the width. -/
def Fits (w : Width) (v : Int) : Prop := -2 ^ (w.bits - 1) ≤ v ∧ v < 2 ^ w.bits

instance (w : Width) (v : Int) : Decidable (Fits w v) := inferInstanceAs (Decidable (_ ∧ _))

/-- The width of a destination and a source that go together. -/
def commonWidth : Place → Place → Option Width
  | .reg _ w, .reg _ w' | .reg _ w, .mem _ w' | .mem _ w, .reg _ w' =>
    if w = w' then some w else none
  | .reg _ w, .imm v _ | .mem _ w, .imm v _ => if Fits w v then some w else none
  | _, _ => none

/-! ## Meanings -/

/-- The arithmetic operation on a destination. -/
def aluAt (op : Alu) (w : Width) (dst : Place) (y : BitVec 64) (m : Machine) : Machine :=
  let x := (dst.read m).setWidth w.bits
  let y := y.setWidth w.bits
  let m' := m.setFlags (op.flags x y)
  if op = .cmp then m' else dst.write m' ((op.apply x y).setWidth 64)

/-- Pushing the low bytes of a word. -/
def pushAt (w : Width) (v : BitVec 64) (m : Machine) : Machine :=
  let sp := m.gpr .rsp - BitVec.ofNat 64 w.bytes
  (m.setGpr .rsp sp).setMem (m.mem.write sp w.bytes v)

/-- Popping into a destination. -/
def popAt (w : Width) (dst : Place) (m : Machine) : Machine :=
  dst.write (m.setGpr .rsp (m.gpr .rsp + BitVec.ofNat 64 w.bytes)) (m.mem.read (m.gpr .rsp) w.bytes)

abbrev Meaning := Env → Machine → Outcome

def meaningZero (mnemonic : String) : Option Meaning :=
  if mnemonic == "nop" then some fun _ m => .next m
  else if mnemonic == "syscall" then some fun env m => .next (env.syscall m)
  else if mnemonic == "cpuid" then some fun env m => .next (env.cpuid m)
  else if mnemonic == "ret" then some fun _ m => .ret m
  else none

/-- `push` takes 16 or 64 bits, or a number of 32 bits. -/
def meaningPush : Place → Option Meaning
  | .imm v s =>
    if -2 ^ 31 ≤ v ∧ v < 2 ^ 31 then
      some fun _ m => .next (pushAt .w64 ((Place.imm v s).read m) m)
    else none
  | .reg r w =>
    if w = .w16 ∨ w = .w64 then some fun _ m => .next (pushAt w ((Place.reg r w).read m) m) else none
  | .mem d w =>
    if w = .w16 ∨ w = .w64 then some fun _ m => .next (pushAt w ((Place.mem d w).read m) m) else none

/-- `pop` takes 16 or 64 bits. -/
def meaningPop (dst : Place) : Option Meaning :=
  match dst.width with
  | some w => if w = .w16 ∨ w = .w64 then some fun _ m => .next (popAt w dst m) else none
  | none => none

def meaningOne (mnemonic : String) (arg : Place) : Option Meaning :=
  match unarySlots mnemonic with
  | some slot => arg.width.map fun _ env m =>
    .next ((arg.write m (unaryOp slot (arg.read m))).setFlags (env.undefFlags m))
  | none =>
    if mnemonic == "push" then meaningPush arg
    else if mnemonic == "pop" then meaningPop arg
    else none

/-- `movzx` takes 8 or 16 bits to a wider register. -/
def meaningMovzx (dst : Place) (srcWidth : Option Width) (src : Place) : Option Meaning :=
  match dst, srcWidth with
  | .reg _ w, some w' =>
    if (w' = .w8 ∨ w' = .w16) ∧ w'.bits < w.bits then
      some fun _ m => .next (dst.write m (zeroExtend w' (src.read m)))
    else none
  | _, _ => none

/-- `lea` takes an address, or its low half, to a register. -/
def meaningLea : Place → Place → Option Meaning
  | .reg r w, .mem disp _ =>
    if w = .w32 ∨ w = .w64 then
      some fun _ m => .next ((Place.reg r w).write m (m.addr .rbp disp))
    else none
  | _, _ => none

def meaningTwo (mnemonic : String) (dst src : Place) : Option Meaning :=
  if mnemonic == "mov" then
    (commonWidth dst src).map fun _ _ m => .next (dst.write m (src.read m))
  else if mnemonic == "movzx" then meaningMovzx dst src.width src
  else if mnemonic == "lea" then meaningLea dst src
  else match aluOps mnemonic with
    | some op => (commonWidth dst src).map fun w _ m => .next (aluAt op w dst (src.read m) m)
    | none =>
      if mnemonic == "test" then
        (commonWidth dst src).map fun w _ m => .next (m.setFlags
          (Alu.flags .and ((dst.read m).setWidth w.bits) ((src.read m).setWidth w.bits)))
      else none

/-- What an instruction does, when its operands go together. -/
def meaning (mnemonic : String) : List Place → Option Meaning
  | [] => meaningZero mnemonic
  | [arg] => meaningOne mnemonic arg
  | [dst, src] => meaningTwo mnemonic dst src
  | _ => none

/-- The machine instruction does what the asm instruction means, on every machine. -/
def Renders (mnemonic : String) (places : List Place) (i : Instr) : Prop :=
  ∃ f, meaning mnemonic places = some f ∧ ∀ env m, exec env [i] m = f env m

/-! ## The forms that are carried over -/

/-- Moving a number into a register: the stored number at 64 bits is what the move leaves in
    the whole register. -/
def MovImm (w : Width) (value stored : Int) : Prop :=
  Fits w value ∧ (w = .w64 ∧ BitVec.ofInt 64 stored = BitVec.ofInt 64 value ∨
    w = .w32 ∧ BitVec.ofInt 64 stored = (BitVec.ofInt 32 value).setWidth 64)

/-- A number in a 32-bit field: the low 32 bits of the stored number, sign-extended. -/
def FieldImm (w : Width) (value stored : Int) : Prop :=
  Fits w value ∧ BitVec.ofInt w.bits (stored.bmod (2 ^ 32)) = BitVec.ofInt w.bits value

/-- A move: operands of one width, or a number. -/
def CarriedMov : Place → Place → Prop
  | .reg _ w, .imm v s => MovImm w v s
  | .mem _ w, .imm v s => FieldImm w v s
  | .reg _ w, .reg _ w' | .reg _ w, .mem _ w' | .mem _ w, .reg _ w' => w = w'
  | _, _ => False

def CarriedAlu : Place → Place → Prop
  | .reg _ w, .imm v s | .mem _ w, .imm v s => FieldImm w v s
  | .reg _ w, .reg _ w' | .reg _ w, .mem _ w' | .mem _ w, .reg _ w' => w = w'
  | _, _ => False

def CarriedMovzx : Place → Place → Prop
  | .reg _ w, src => (src.width = some .w8 ∨ src.width = some .w16) ∧ (w = .w32 ∨ w = .w64)
  | _, _ => False

def CarriedLea : Place → Place → Prop
  | .reg _ w, .mem _ _ => w = .w64
  | _, _ => False

def CarriedTest : Place → Place → Prop
  | .reg _ w, .reg _ w' => w = w' ∧ w ≠ .w16
  | _, _ => False

def CarriedTwo (mnemonic : String) (dst src : Place) : Prop :=
  if mnemonic == "mov" then CarriedMov dst src
  else if mnemonic == "movzx" then CarriedMovzx dst src
  else if mnemonic == "lea" then CarriedLea dst src
  else if (aluOps mnemonic).isSome then CarriedAlu dst src
  else mnemonic = "test" ∧ CarriedTest dst src

def CarriedOne (mnemonic : String) (arg : Place) : Prop :=
  if (unarySlots mnemonic).isSome = true then arg.width.isSome = true
  else (mnemonic = "push" ∨ mnemonic = "pop") ∧ arg.width = some .w64

/-- The mnemonics that are encoded whatever operands they have. -/
def bare : List String := ["nop", "syscall", "cpuid", "ret"]

/-- The forms of asm instructions that are carried over as they are. -/
def Carried (mnemonic : String) : List Place → Prop
  | [] => mnemonic ∈ bare
  | [arg] => CarriedOne mnemonic arg
  | [dst, src] => CarriedTwo mnemonic dst src
  | _ => False

end Mirage.X86
