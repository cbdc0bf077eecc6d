import Mirage.Mir.Basic

/-!
# The WebAssembly machine

The straight-line part of WebAssembly that the integer lowering uses: a stack of
typed values and typed locals. A MIR value lives in a local of its own, so that locals
are named by values. An instruction traps, or is invalid where the validator would have
rejected the function: on an operand of the wrong type, or when a local is set to a
value of another type.
-/

namespace Mirage.Wasm

inductive ValType
  | i32 | i64 | f32 | f64
  deriving DecidableEq, Repr

/-- The values; floats are bit patterns. -/
inductive Val
  | i32 (x : BitVec 32)
  | i64 (x : BitVec 64)
  | f32 (x : BitVec 32)
  | f64 (x : BitVec 64)
  deriving DecidableEq

def Val.type : Val → ValType
  | .i32 _ => .i32
  | .i64 _ => .i64
  | .f32 _ => .f32
  | .f64 _ => .f64

/-- The binary operations, at either width. -/
inductive IntOp
  | add | sub | mul | divS | divU | remS | remU
  | and | or | xor | shl | shrS | shrU
  deriving DecidableEq, Repr

/-- The comparisons, at either width. -/
inductive RelOp
  | eq | ne | ltS | ltU | gtS | gtU | leS | leU | geS | geU
  deriving DecidableEq, Repr

inductive Instr
  | localGet (v : ValueId)
  | localSet (v : ValueId)
  | i32Const (k : BitVec 32)
  | i64Const (k : BitVec 64)
  | i32Op (op : IntOp)
  | i64Op (op : IntOp)
  | i32Rel (op : RelOp)
  | i64Rel (op : RelOp)
  | i32Extend8S
  | i32Extend16S
  | i32WrapI64
  | i64ExtendI32S
  | i64ExtendI32U
  | select
  deriving DecidableEq, Repr

/-- The result of a binary operation, `none` when it traps. A shift takes its count
    modulo the width; a signed remainder does not overflow. -/
def IntOp.apply (op : IntOp) {n : Nat} (x y : BitVec n) : Option (BitVec n) :=
  match op with
  | .add => some (x + y)
  | .sub => some (x - y)
  | .mul => some (x * y)
  | .divS => if y = 0 ∨ x = BitVec.intMin n ∧ y = -1 then none else some (x.sdiv y)
  | .divU => if y = 0 then none else some (x / y)
  | .remS => if y = 0 then none else some (x.srem y)
  | .remU => if y = 0 then none else some (x % y)
  | .and => some (x &&& y)
  | .or => some (x ||| y)
  | .xor => some (x ^^^ y)
  | .shl => some (x <<< (y.toNat % n))
  | .shrS => some (x.sshiftRight (y.toNat % n))
  | .shrU => some (x >>> (y.toNat % n))

def RelOp.holds (op : RelOp) {n : Nat} (x y : BitVec n) : Bool :=
  match op with
  | .eq => x = y
  | .ne => x ≠ y
  | .ltS => x.slt y
  | .ltU => x.ult y
  | .gtS => y.slt x
  | .gtU => y.ult x
  | .leS => x.sle y
  | .leU => x.ule y
  | .geS => y.sle x
  | .geU => y.ule x

structure State where
  stack : List Val
  locals : ValueId → Val

inductive Outcome
  | ok (s : State)
  | trap
  | invalid

def State.push (s : State) (v : Val) : State := { s with stack := v :: s.stack }

/-- The local `v` holding `x`. -/
def State.setLocal (s : State) (v : ValueId) (x : Val) : State :=
  { s with locals := fun v' => if v' = v then x else s.locals v' }

def Outcome.andThen (o : Outcome) (f : State → Outcome) : Outcome :=
  match o with
  | .ok s => f s
  | .trap => .trap
  | .invalid => .invalid

/-- The value of an operation on the stack, or a trap. -/
def State.pushOr (s : State) : Option Val → Outcome
  | some v => .ok (s.push v)
  | none => .trap

/-- An operation on one `i32`. -/
def State.unary32 (s : State) (f : BitVec 32 → Val) : Outcome :=
  match s.stack with
  | .i32 x :: rest => .ok { s with stack := f x :: rest }
  | _ => .invalid

/-- An operation on two values of type `i32`; the second one is on top. -/
def State.binary32 (s : State) (f : BitVec 32 → BitVec 32 → Option Val) : Outcome :=
  match s.stack with
  | .i32 y :: .i32 x :: rest => { s with stack := rest }.pushOr (f x y)
  | _ => .invalid

def State.binary64 (s : State) (f : BitVec 64 → BitVec 64 → Option Val) : Outcome :=
  match s.stack with
  | .i64 y :: .i64 x :: rest => { s with stack := rest }.pushOr (f x y)
  | _ => .invalid

def boolVal (b : Bool) : Val := .i32 (if b then 1 else 0)

/-- One instruction. -/
def Instr.run (i : Instr) (s : State) : Outcome :=
  match i with
  | .localGet v => .ok (s.push (s.locals v))
  | .localSet v =>
    match s.stack with
    | x :: rest =>
      if x.type = (s.locals v).type then .ok { s.setLocal v x with stack := rest } else .invalid
    | [] => .invalid
  | .i32Const k => .ok (s.push (.i32 k))
  | .i64Const k => .ok (s.push (.i64 k))
  | .i32Op op => s.binary32 fun x y => (op.apply x y).map .i32
  | .i64Op op => s.binary64 fun x y => (op.apply x y).map .i64
  | .i32Rel op => s.binary32 fun x y => some (boolVal (op.holds x y))
  | .i64Rel op => s.binary64 fun x y => some (boolVal (op.holds x y))
  | .i32Extend8S => s.unary32 fun x => .i32 ((x.setWidth 8).signExtend 32)
  | .i32Extend16S => s.unary32 fun x => .i32 ((x.setWidth 16).signExtend 32)
  | .i32WrapI64 =>
    match s.stack with
    | .i64 x :: rest => .ok { s with stack := .i32 (x.setWidth 32) :: rest }
    | _ => .invalid
  | .i64ExtendI32S => s.unary32 fun x => .i64 (x.signExtend 64)
  | .i64ExtendI32U => s.unary32 fun x => .i64 (x.setWidth 64)
  | .select =>
    match s.stack with
    | .i32 c :: y :: x :: rest =>
      if x.type = y.type then .ok { s with stack := (if c ≠ 0 then x else y) :: rest }
      else .invalid
    | _ => .invalid

/-- A sequence of instructions. -/
def run : List Instr → State → Outcome
  | [], s => .ok s
  | i :: rest, s => (i.run s).andThen (run rest)

@[simp] theorem run_nil (s : State) : run [] s = .ok s := rfl

@[simp] theorem run_get (v : ValueId) (rest : List Instr) (s : State) :
    run (.localGet v :: rest) s = run rest (s.push (s.locals v)) := rfl

@[simp] theorem run_const32 (k : BitVec 32) (rest : List Instr) (s : State) :
    run (.i32Const k :: rest) s = run rest (s.push (.i32 k)) := rfl

@[simp] theorem run_const64 (k : BitVec 64) (rest : List Instr) (s : State) :
    run (.i64Const k :: rest) s = run rest (s.push (.i64 k)) := rfl

@[simp] theorem run_op32 (op : IntOp) (rest : List Instr) (s : State) (x y : BitVec 32) :
    run (.i32Op op :: rest) ((s.push (.i32 x)).push (.i32 y)) =
      (s.pushOr ((op.apply x y).map .i32)).andThen (run rest) := rfl

@[simp] theorem run_op64 (op : IntOp) (rest : List Instr) (s : State) (x y : BitVec 64) :
    run (.i64Op op :: rest) ((s.push (.i64 x)).push (.i64 y)) =
      (s.pushOr ((op.apply x y).map .i64)).andThen (run rest) := rfl

@[simp] theorem run_rel32 (op : RelOp) (rest : List Instr) (s : State) (x y : BitVec 32) :
    run (.i32Rel op :: rest) ((s.push (.i32 x)).push (.i32 y)) =
      run rest (s.push (boolVal (op.holds x y))) := rfl

@[simp] theorem run_rel64 (op : RelOp) (rest : List Instr) (s : State) (x y : BitVec 64) :
    run (.i64Rel op :: rest) ((s.push (.i64 x)).push (.i64 y)) =
      run rest (s.push (boolVal (op.holds x y))) := rfl

@[simp] theorem run_extend8S (rest : List Instr) (s : State) (x : BitVec 32) :
    run (.i32Extend8S :: rest) (s.push (.i32 x)) =
      run rest (s.push (.i32 ((x.setWidth 8).signExtend 32))) := rfl

@[simp] theorem run_extend16S (rest : List Instr) (s : State) (x : BitVec 32) :
    run (.i32Extend16S :: rest) (s.push (.i32 x)) =
      run rest (s.push (.i32 ((x.setWidth 16).signExtend 32))) := rfl

@[simp] theorem run_wrap (rest : List Instr) (s : State) (x : BitVec 64) :
    run (.i32WrapI64 :: rest) (s.push (.i64 x)) = run rest (s.push (.i32 (x.setWidth 32))) := rfl

@[simp] theorem run_extendS (rest : List Instr) (s : State) (x : BitVec 32) :
    run (.i64ExtendI32S :: rest) (s.push (.i32 x)) = run rest (s.push (.i64 (x.signExtend 64))) :=
  rfl

@[simp] theorem run_extendU (rest : List Instr) (s : State) (x : BitVec 32) :
    run (.i64ExtendI32U :: rest) (s.push (.i32 x)) = run rest (s.push (.i64 (x.setWidth 64))) :=
  rfl

theorem run_set {v : ValueId} {x : Val} {s : State} (h : (s.locals v).type = x.type) :
    run [.localSet v] (s.push x) = .ok (s.setLocal v x) := by
  show Outcome.andThen (if x.type = (s.locals v).type then _ else _) _ = _
  rw [if_pos h.symm]
  rfl

theorem run_set_invalid {v : ValueId} {x : Val} {s : State} (h : (s.locals v).type ≠ x.type) :
    run [.localSet v] (s.push x) = .invalid := by
  show Outcome.andThen (if x.type = (s.locals v).type then _ else _) _ = _
  rw [if_neg fun he => h he.symm]
  rfl

theorem run_select {x y : Val} (h : x.type = y.type) (k : BitVec 32) (rest : List Instr)
    (s : State) : run (.select :: rest) (((s.push x).push y).push (.i32 k)) =
      run rest (s.push (if k ≠ 0 then x else y)) := by
  show Outcome.andThen (if x.type = y.type then _ else _) _ = _
  rw [if_pos h]
  rfl

@[simp] theorem push_locals (s : State) (x : Val) : (s.push x).locals = s.locals := rfl

@[simp] theorem pushOr_some_andThen (s : State) (x : Val) (f : State → Outcome) :
    (s.pushOr (some x)).andThen f = f (s.push x) := rfl

@[simp] theorem pushOr_none_andThen (s : State) (f : State → Outcome) :
    (s.pushOr none).andThen f = .trap := rfl

theorem run_cons (i : Instr) (rest : List Instr) (s : State) :
    run (i :: rest) s = (i.run s).andThen (run rest) := rfl

theorem run_append (code code' : List Instr) (s : State) :
    run (code ++ code') s = (run code s).andThen (run code') := by
  induction code generalizing s with
  | nil => rfl
  | cons i rest ih =>
    rw [List.cons_append, run_cons, run_cons]
    cases i.run s with
    | ok s' => exact ih s'
    | trap => rfl
    | invalid => rfl

end Mirage.Wasm
