import Mirage.Wasm.Machine

/-!
# The integer lowering to WebAssembly

The instructions `emit_inst` writes for the integer operations. An integer of at most
32 bits is held, zero-extended, in a local of type `i32`, a 64-bit one in a local of type
`i64`. Narrow divisions and shifts are done at 64 bits, and what may leave the width of a
narrow type is masked: an `i1` at 8 bits.
-/

namespace Mirage.Wasm

def valType (type : Ty) : ValType :=
  match type with
  | .i64 => .i64
  | .f32 => .f32
  | .f64 => .f64
  | _ => .i32

def isI64Class (type : Ty) : Bool := type == .i64

/-- The zero-extension mask of a narrow type; zero for none. -/
def narrowMask (type : Ty) : BitVec 32 :=
  match type with
  | .i1 | .i8 => 0xFF
  | .i16 => 0xFFFF
  | _ => 0

def maskNarrow (type : Ty) : List Instr :=
  if narrowMask type ≠ 0 then [.i32Const (narrowMask type), .i32Op .and] else []

section Emit

variable (fn : Function)

/-- Push a value sign-extended to 64 bits from its own width. -/
def pushSigned64 (v : ValueId) : List Instr :=
  .localGet v ::
  match fn.valueType v with
  | .i1 | .i8 => [.i32Extend8S, .i64ExtendI32S]
  | .i16 => [.i32Extend16S, .i64ExtendI32S]
  | .i64 => []
  | _ => [.i64ExtendI32S]

/-- Push a value zero-extended to 64 bits. -/
def pushUnsigned64 (v : ValueId) : List Instr :=
  .localGet v :: if fn.valueType v ≠ .i64 then [.i64ExtendI32U] else []

def intOpOf : Op → IntOp
  | .add => .add
  | .sub => .sub
  | .mul => .mul
  | .and => .and
  | .or => .or
  | .xor => .xor
  | .sdiv => .divS
  | .srem => .remS
  | .udiv => .divU
  | .urem => .remU
  | .shl => .shl
  | .lshr => .shrU
  | _ => .shrS

def relOpOf : Op → RelOp
  | .icmpEq => .eq
  | .icmpNe => .ne
  | .icmpSlt => .ltS
  | .icmpSle => .leS
  | .icmpSgt => .gtS
  | .icmpSge => .geS
  | .icmpUlt => .ltU
  | .icmpUle => .leU
  | .icmpUgt => .gtU
  | _ => .geU

/-- An operation at the width of its class. -/
def opAt (type : Ty) (op : IntOp) : Instr := if isI64Class type then .i64Op op else .i32Op op

/-- Sign-extend a narrow value on the stack to 32 bits. -/
def signExtendNarrow : Ty → List Instr
  | .i1 | .i8 => [.i32Extend8S]
  | .i16 => [.i32Extend16S]
  | _ => []

def emitIcmp (inst : Inst) : List Instr :=
  [.localGet inst.a, .localGet inst.b,
    if isI64Class (fn.valueType inst.a) then .i64Rel (relOpOf inst.op)
    else .i32Rel (relOpOf inst.op),
    .localSet inst.result]

/-- The integer operations of `emit_inst`. -/
def emitInt (inst : Inst) : List Instr :=
  let type := inst.type
  let wide := isI64Class type
  match inst.op with
  | .add | .sub | .mul =>
    [.localGet inst.a, .localGet inst.b, opAt type (intOpOf inst.op)] ++ maskNarrow type ++
    [.localSet inst.result]
  | .and | .or | .xor =>
    [.localGet inst.a, .localGet inst.b, opAt type (intOpOf inst.op), .localSet inst.result]
  | .sdiv | .srem =>
    -- a narrow one at 64 bits, where it cannot overflow
    (if wide then [.localGet inst.a, .localGet inst.b, .i64Op (intOpOf inst.op)]
    else pushSigned64 fn inst.a ++ pushSigned64 fn inst.b ++
      [.i64Op (intOpOf inst.op), .i32WrapI64] ++ maskNarrow type) ++
    [.localSet inst.result]
  | .udiv | .urem =>
    [.localGet inst.a, .localGet inst.b, opAt type (intOpOf inst.op), .localSet inst.result]
  | .shl | .lshr | .ashr =>
    if wide then
      [.localGet inst.a, .localGet inst.b, .i64Op (intOpOf inst.op), .localSet inst.result]
    else
      -- the count is taken modulo 64, not 32
      (if inst.op == .ashr then pushSigned64 fn inst.a else pushUnsigned64 fn inst.a) ++
      pushUnsigned64 fn inst.b ++ [.i64Op (intOpOf inst.op), .i32WrapI64] ++
      (if inst.op != .lshr then maskNarrow type else []) ++ [.localSet inst.result]
  | .not =>
    .localGet inst.a ::
    (if type == .i1 then [.i32Const 1, .i32Op .xor]
    else if wide then [.i64Const (-1), .i64Op .xor]
    else [.i32Const (-1), .i32Op .xor] ++ maskNarrow type) ++
    [.localSet inst.result]
  | .neg =>
    (if wide then [.i64Const 0, .localGet inst.a, .i64Op .sub]
    else [.i32Const 0, .localGet inst.a, .i32Op .sub] ++ maskNarrow type) ++
    [.localSet inst.result]
  | .trunc =>
    .localGet inst.a ::
    (if isI64Class (fn.valueType inst.a) then [.i32WrapI64] else []) ++
    (if type == .i32 || type == .ptr then [] else maskNarrow type) ++ [.localSet inst.result]
  | .zext =>
    let from64 := isI64Class (fn.valueType inst.a)
    .localGet inst.a ::
    (if !from64 && wide then [.i64ExtendI32U] else if from64 && !wide then [.i32WrapI64] else []) ++
    maskNarrow type ++ [.localSet inst.result]
  | .sext =>
    .localGet inst.a ::
    signExtendNarrow (fn.valueType inst.a) ++
    (if wide then [.i64ExtendI32S] else maskNarrow type) ++ [.localSet inst.result]
  | .select =>
    [.localGet inst.b, .localGet inst.c, .localGet inst.a, .select, .localSet inst.result]
  | _ => emitIcmp fn inst

end Emit

/-- The content of a local of an integer type. -/
def localOf (type : Ty) (x : BitVec 64) : Val :=
  if isI64Class type then .i64 x else .i32 (x.setWidth 32)

end Mirage.Wasm
