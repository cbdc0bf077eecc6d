import Mirage.Wasm.Dispatch

/-!
# Running the functions of a module

The whole code of a function: the straight-line integer instructions of before, and with them
the shadow-stack pointer, which is a global of the module, memory, floats and calls (`Plain`);
and the instructions for control around them (`Body`). The code that an instruction of the
function is translated to stands together (`Body.ofInst`), so that a run can be read as one of
the function: whenever such code has run, the instruction is put on record with the locals and
the stack pointer before and after it (`Event`).

What WebAssembly does outside of this, to floats, to memory and in the functions that are
imported, is a parameter (`Env`). A call of a function of the module runs its code; calls are
nested to a depth, and loops take a number of turns, that they are given.
-/

namespace Mirage.Wasm.ShadowStack

/-! ## Instructions -/

/-- The instructions on floats, at 64 bits or at 32. -/
inductive FloatInstr
  | add (dbl : Bool) | sub (dbl : Bool) | mul (dbl : Bool) | div (dbl : Bool) | neg (dbl : Bool)
  | eq (dbl : Bool) | lt (dbl : Bool) | le (dbl : Bool) | gt (dbl : Bool) | ge (dbl : Bool)
  | promote | demote
  | convertI64 (dbl signed : Bool)
  | truncSat (dbl signed : Bool)
  | reinterpret (source target : ValType)
  deriving DecidableEq, Repr

/-- What a call leads to: a function of the module, or `fmod` and `fmodf`. -/
inductive Target
  | function (f : Nat)
  | fmod (dbl : Bool)
  deriving DecidableEq, Repr

/-- The instructions other than those for control. `spGet` and `spSet` are `global.get` and
    `global.set` of the shadow-stack pointer. -/
inductive Plain
  | op (i : Instr)
  | localTee (i : Nat)
  | spGet
  | spSet
  | f32Const (bits : BitVec 32)
  | f64Const (bits : BitVec 64)
  | float (i : FloatInstr)
  | load (type : ValType) (bits : Nat)
  | store (type : ValType) (bits offset : Nat)
  | memoryCopy
  | memoryFill
  | drop
  | call (target : Target)
  | callIndirect (signature : Nat)
  deriving DecidableEq, Repr

/-- The type of a function; there is at most one result. -/
structure FuncType where
  params : List ValType := []
  result : Option ValType := none

def resultType (type : Ty) : Option ValType := if type = .void then none else some (valType type)

/-- The type of an imported function: a variadic one takes its tail by a pointer. -/
def funcTypeOf (module : Module) (signature : Nat) : FuncType :=
  let sig := module.signatures.getD signature {}
  { params := sig.params.map valType ++ if sig.isVariadic then [.i32] else []
    result := resultType sig.result }

/-- The type of a function that has a body here. -/
def definedFuncType (module : Module) (fn : Function) : FuncType where
  params := fn.params.map fun param => valType (fn.valueType param)
  result := resultType (module.signatures.getD fn.signature {}).result

def targetType (module : Module) : Target → FuncType
  | .function f =>
    let fn := module.functions.getD f {}
    if fn.hasBody then definedFuncType module fn else funcTypeOf module fn.signature
  | .fmod true => ⟨[.f64, .f64], some .f64⟩
  | .fmod false => ⟨[.f32, .f32], some .f32⟩

/-- The code of a function. -/
inductive Body
  | plain (p : Plain)
  | ofInst (inst : Inst) (code : List Plain)
  | br (depth : Nat)
  | brTable (depths : List Nat) (default : Nat)
  | ifElse (yes no : List Body)
  | block (body : List Body)
  | loop (body : List Body)
  | ret
  | unreachable

/-! ## The machine -/

/-- Why a run ends before its function returns: `running` where it takes more turns or
    nested calls than it is given. -/
inductive Halt
  | trap | invalid | running
  deriving DecidableEq, Repr

structure Snapshot where
  locals : Nat → Val
  sp : BitVec 32

/-- An instruction of the function that has been executed. -/
structure Event where
  inst : Inst
  old : Snapshot
  new : Snapshot

/-- A function that is running: its operands and locals, the stack pointer, the rest of the
    world, and the instructions it has executed, the last one first. -/
structure Machine (W : Type) where
  state : State
  sp : BitVec 32
  world : W
  trace : List Event

/-- A function: its arguments, the stack pointer and the world, and, where it returns, its
    result, and what these have become. -/
abbrev Callee (W : Type) := List Val → BitVec 32 → W → Except Halt (Option Val × BitVec 32 × W)

/-- What is not the module's: float arithmetic, `none` for operands of another type; memory,
    `none` for a trap; the functions in the table, by the type that is expected and the index;
    and the functions that are imported. -/
structure Env (W : Type) where
  float : FloatInstr → List Val → Option (List Val)
  load : ValType → Nat → Nat → W → Option Val
  store : Nat → Nat → Val → W → Option W
  copy : BitVec 32 → BitVec 32 → BitVec 32 → W → Option W
  fill : BitVec 32 → BitVec 32 → BitVec 32 → W → Option W
  table : FuncType → BitVec 32 → Option Target
  host : Target → Callee W

namespace Machine

variable {W : Type} (m : Machine W)

def snapshot : Snapshot := ⟨m.state.locals, m.sp⟩

/-- The machine with other operands. -/
def clear (stack : List Val) : Machine W := { m with state := m.state.clear stack }

/-- The instruction is on record that has been executed since. -/
def note (inst : Inst) (since : Machine W) : Machine W :=
  { m with trace := ⟨inst, since.snapshot, m.snapshot⟩ :: m.trace }

def after : Outcome → Except Halt (Machine W)
  | .ok s => .ok { m with state := s }
  | .trap => .error .trap
  | .invalid => .error .invalid

/-- A change of memory, or a trap. -/
def remember (stack : List Val) : Option W → Except Halt (Machine W)
  | some w => .ok { m.clear stack with world := w }
  | none => .error .trap

/-- A call with the operands on the stack. -/
def invoke (type : FuncType) (f : Callee W) : Except Halt (Machine W) :=
  let args := (m.state.stack.take type.params.length).reverse
  if args.map Val.type = type.params then do
    let (value, sp, w) ← f args m.sp m.world
    let rest := m.state.stack.drop type.params.length
    .ok { m.clear (value.toList ++ rest) with sp := sp, world := w }
  else .error .invalid

end Machine

/-- How a function ends. -/
inductive Finish (W : Type)
  | ret (value : Option Val) (m : Machine W)
  | halt (h : Halt)

def toFlow {W : Type} : Except Halt (Machine W) → Labels.Flow (Machine W) (Finish W)
  | .ok m => .next m
  | .error h => .done (.halt h)

section

variable {W : Type} (env : Env W) (module : Module) (callee : Target → Callee W)

def Plain.run (p : Plain) (m : Machine W) : Except Halt (Machine W) :=
  match p with
  | .op i => m.after (i.run m.state)
  | .localTee i =>
    match m.state.stack with
    | x :: _ =>
      if x.type = (m.state.locals i).type then .ok { m with state := m.state.setLocal i x }
      else .error .invalid
    | [] => .error .invalid
  | .spGet => .ok (m.clear (.i32 m.sp :: m.state.stack))
  | .spSet =>
    match m.state.stack with
    | .i32 sp :: rest => .ok { m.clear rest with sp := sp }
    | _ => .error .invalid
  | .f32Const bits => .ok (m.clear (.f32 bits :: m.state.stack))
  | .f64Const bits => .ok (m.clear (.f64 bits :: m.state.stack))
  | .float i =>
    match env.float i m.state.stack with
    | some stack => .ok (m.clear stack)
    | none => .error .invalid
  | .load type bits =>
    match m.state.stack with
    | .i32 address :: rest =>
      match env.load type bits address.toNat m.world with
      | some x => .ok (m.clear (x :: rest))
      | none => .error .trap
    | _ => .error .invalid
  | .store type bits offset =>
    match m.state.stack with
    | x :: .i32 address :: rest =>
      if x.type = type then
        m.remember rest (env.store bits (address.toNat + offset) x m.world)
      else .error .invalid
    | _ => .error .invalid
  | .memoryCopy =>
    match m.state.stack with
    | .i32 count :: .i32 source :: .i32 target :: rest =>
      m.remember rest (env.copy target source count m.world)
    | _ => .error .invalid
  | .memoryFill =>
    match m.state.stack with
    | .i32 count :: .i32 value :: .i32 target :: rest =>
      m.remember rest (env.fill target value count m.world)
    | _ => .error .invalid
  | .drop =>
    match m.state.stack with
    | _ :: rest => .ok (m.clear rest)
    | [] => .error .invalid
  | .call target => m.invoke (targetType module target) (callee target)
  | .callIndirect signature =>
    match m.state.stack with
    | .i32 index :: rest =>
      match env.table (funcTypeOf module signature) index with
      | some target => (m.clear rest).invoke (funcTypeOf module signature) (callee target)
      | none => .error .trap
    | _ => .error .invalid

attribute [grind =] Plain.run

def runPlain (code : List Plain) (m : Machine W) : Except Halt (Machine W) :=
  code.foldlM (fun m p => p.run env module callee m) m

variable (turns : Nat)

mutual

/-- One piece of code; a loop takes so many turns at most. -/
def Body.run : Body → Machine W → Labels.Flow (Machine W) (Finish W)
  | .plain p, m => toFlow (p.run env module callee m)
  | .ofInst inst code, m =>
    toFlow ((runPlain env module callee code m).map fun m' => m'.note inst m)
  | .br depth, m => .br depth m
  | .brTable depths default, m =>
    match m.state.stack with
    | .i32 i :: rest => .br (depths.getD i.toNat default) (m.clear rest)
    | _ => .done (.halt .invalid)
  | .ifElse yes no, m =>
    match m.state.stack with
    | .i32 c :: rest =>
      if c ≠ 0 then (Body.runAll yes (m.clear [])).close (Machine.clear · rest)
      else (Body.runAll no (m.clear [])).close (Machine.clear · rest)
    | _ => .done (.halt .invalid)
  | .block body, m => (Body.runAll body (m.clear [])).close (Machine.clear · m.state.stack)
  | .loop body, m =>
    Labels.loop (Machine.clear · []) (fun _ => .halt .running) (Body.runAll body) turns (m.clear [])
  | .ret, m => .done (.ret m.state.stack.head? m)
  | .unreachable, _ => .done (.halt .trap)

def Body.runAll : List Body → Machine W → Labels.Flow (Machine W) (Finish W)
  | [], m => .next m
  | c :: rest, m => (c.run m).andThen (Body.runAll rest)

end

attribute [grind =] Body.run Body.runAll

/-! ## Functions -/

/-- The code of a function, and its locals. -/
structure Emitted where
  locals : Locals
  body : List Body

def zeroOf : ValType → Val
  | .i32 => .i32 0
  | .i64 => .i64 0
  | .f32 => .f32 0
  | .f64 => .f64 0

/-- The machine at the entry of a function: the arguments are in the first locals. -/
def Emitted.enter (code : Emitted) (args : List Val) (sp : BitVec 32) (w : W) : Machine W where
  state :=
    { stack := []
      locals := fun i => args.getD i (zeroOf (code.locals.types.getD i .i32)) }
  sp
  world := w
  trace := []

/-- A function runs until it returns. A function of `2 ^ 32` locals or more is not in the
    format; no code goes on behind its end, or branches out of it. -/
def Emitted.activate (code : Emitted) (args : List Val) (sp : BitVec 32) (w : W) : Finish W :=
  if code.locals.types.length < 4294967296 then
    match Body.runAll env module callee turns code.body (code.enter args sp w) with
    | .done r => r
    | _ => .halt .invalid
  else .halt .invalid

/-- What the caller sees of a function that returns. -/
def Finish.seen (type : FuncType) : Finish W → Except Halt (Option Val × BitVec 32 × W)
  | .ret value m =>
    match type.result with
    | none => .ok (none, m.sp, m.world)
    | some result =>
      if value.map Val.type = some result then .ok (value, m.sp, m.world) else .error .invalid
  | .halt h => .error h

/-- A call, with `emit` for the code of the functions of the module. -/
def invokeAt (emit : Function → Option Emitted) : Nat → Target → Callee W
  | 0, _, _, _, _ => .error .running
  | depth + 1, target, args, sp, w =>
    match target with
    | .function f =>
      let fn := module.functions.getD f {}
      if fn.hasBody then
        match emit fn with
        | some code =>
          (code.activate env module (invokeAt emit depth) turns args sp w).seen
            (definedFuncType module fn)
        | none => .error .invalid
      else env.host target args sp w
    | .fmod _ => env.host target args sp w

end

end Mirage.Wasm.ShadowStack
