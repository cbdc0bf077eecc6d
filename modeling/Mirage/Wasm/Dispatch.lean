import Mirage.Lib.FirstMatch
import Mirage.Lib.Labels
import Mirage.Mir.Typing
import Mirage.Wasm.BlockArgs
import Mirage.Wasm.Structured

/-!
# The dispatch loop

For control flow that is not reducible the backend writes a loop around one block for each
block of the function. The innermost has a `br_table` on the state local, and behind the end
of each block stands the code of one block of the function, whose terminator sets the
state local and branches back to the loop (`dispatchLoop`).

What an instruction other than a terminator does to the locals, and to the rest of the world
`W`, is a parameter (`Ordinary`): its code is straight-line, keeps the types of the locals
and leaves the operand stack as it was, and does not know the state local and the staging
locals, which no other instruction names.
-/

namespace Mirage.Wasm

open Staging FirstMatch

/-! ## The backend's own locals -/

def needsFrame (fn : Function) : Bool := frameSize fn > 0 || hasStackAlloc fn

/-- `saved_sp_local`, the first one behind the parameters when there is a frame. -/
def savedSpLocal (fn : Function) : Nat := fn.params.length

/-- `state_local`, behind the locals for the frame and for variadic calls. -/
def stateIndex (module : Module) (fn : Function) : Nat :=
  fn.params.length + (if needsFrame fn then 2 else 0) + if hasVariadicCall module fn then 2 else 0

/-- A local of the backend's own. -/
structure Locals.Own (l : Locals) (i : Nat) : Prop where
  type : l.types[i]? = some .i32
  place : ∀ k, l.localOf k ≠ some i

namespace Locals

variable {l : Locals} {fn : Function} {i : Nat}

theorem Own.lt (h : l.Own i) : i < l.types.length := (List.getElem?_eq_some_iff.1 h.type).1

theorem Own.give (h : l.Own i) (k : Place ValueId) : (l.give fn k).Own i where
  type := by rw [give_types, List.getElem?_append_left h.lt, h.type]
  place k' := by
    rcases l.localOf_give fn k k' with ⟨rfl, hnew⟩ | ⟨-, hold⟩
    · rw [hnew]
      exact fun heq => absurd (Option.some.inj heq) (Nat.ne_of_gt h.lt)
    · rw [hold]
      exact h.place k'

theorem Own.giveValue (h : l.Own i) (v : ValueId) : (l.giveValue fn v).Own i := by
  rw [Locals.giveValue]
  split_ifs
  · exact h.give (.home v)
  · exact h

theorem Own.foldl {α : Type*} {step : Locals → α → Locals}
    (hstep : ∀ l a, l.Own i → (step l a).Own i) (as : List α) (h : l.Own i) :
    (as.foldl step l).Own i := by
  induction as generalizing l with
  | nil => exact h
  | cons a as ih => exact ih (hstep l a h)

theorem length_foldl_give (fn : Function) (ps : List ValueId) (l : Locals) :
    (ps.foldl (fun l p => Locals.give fn l (.home p)) l).types.length =
      l.types.length + ps.length := by
  induction ps generalizing l with
  | nil => rfl
  | cons p ps ih =>
    rw [List.foldl_cons, ih, give_types, List.length_append, List.length_singleton,
      List.length_cons]
    omega

/-- The locals that are added are the backend's own. -/
theorem Ok.own_new (h : l.Ok fn) {count j : Nat} (hj : j < count) :
    (l.own count).Own (l.types.length + j) where
  type := by
    show (l.types ++ List.replicate count .i32)[l.types.length + j]? = _
    rw [List.getElem?_append_right (Nat.le_add_right _ _), Nat.add_sub_cancel_left,
      List.getElem?_replicate, if_pos hj]
  place k hk := absurd (h.lt hk) (by omega)

end Locals

/-- The locals between the parameters and the values are the backend's own. -/
theorem own_of_lt (module : Module) (fn : Function) (useDispatch : Bool) {j : Nat}
    (hj : j < (if needsFrame fn then 2 else 0) + (if hasVariadicCall module fn then 2 else 0) +
      if useDispatch then 1 else 0) :
    (assignLocals module fn useDispatch).Own (fn.params.length + j) := by
  have hempty : ({} : Locals).Ok fn :=
    ⟨fun k i hk => absurd hk (by simp), fun k k' i hk => absurd hk (by simp)⟩
  have hparams := hempty.foldl (fun l p h => h.give (.home p)) fn.params
  have hlen := Locals.length_foldl_give fn fn.params {}
  have hown := hparams.own_new hj
  rw [hlen, show ({} : Locals).types.length + fn.params.length = fn.params.length by simp] at hown
  exact (hown.foldl (fun l v h => h.giveValue v) _).foldl (fun l p h => h.give (.staging p)) _

theorem assignLocals_own (module : Module) (fn : Function) {j : Nat}
    (hj : fn.params.length + j ≤ stateIndex module fn) :
    (assignLocals module fn true).Own (fn.params.length + j) := by
  rw [stateIndex] at hj
  exact own_of_lt module fn true (by simp only [if_true]; omega)

theorem stateIndex_own (module : Module) (fn : Function) :
    (assignLocals module fn true).Own (stateIndex module fn) := by
  have hle : fn.params.length ≤ stateIndex module fn := by
    rw [stateIndex]
    omega
  have hadd := Nat.add_sub_cancel' hle
  have hown := assignLocals_own module fn hadd.le
  rwa [hadd] at hown

theorem savedSpLocal_own (module : Module) (fn : Function) :
    (assignLocals module fn true).Own (savedSpLocal fn) :=
  assignLocals_own module fn (j := 0) (by rw [stateIndex]; omega)

/-! ## Instructions other than terminators -/

/-- A local that only terminators name: the state local, or one for staging. -/
def Locals.Hidden (l : Locals) (state i : Nat) : Prop :=
  i = state ∨ ∃ p, l.localOf (.staging p) = some i

/-- The states differ in hidden locals at most. -/
structure Locals.Same (l : Locals) (state : Nat) (s t : State) : Prop where
  stack : t.stack = s.stack
  locals : ∀ i, ¬l.Hidden state i → t.locals i = s.locals i

/-- What the instructions other than terminators do, `none` where one traps, and setting the
    shadow-stack pointer. -/
structure Ordinary (l : Locals) (state : Nat) (W : Type) where
  exec : Inst → State × W → Option (State × W)
  setSp : BitVec 32 → W → W
  typed : ∀ inst s w s' w', exec inst (s, w) = some (s', w') → l.Typed s → l.Typed s'
  stack : ∀ inst s w s' w', exec inst (s, w) = some (s', w') → s'.stack = s.stack
  trap : ∀ inst s t w, l.Same state s t → exec inst (s, w) = none → exec inst (t, w) = none
  blind : ∀ inst s t w s' w', l.Same state s t → exec inst (s, w) = some (s', w') →
    ∃ t', exec inst (t, w) = some (t', w') ∧ l.Same state s' t'

/-! ## Code -/

/-- The code of a function. -/
inductive Ctrl
  | other (inst : Inst)
  | op (i : Instr)
  | globalSetSp
  | br (depth : Nat)
  | brTable (depths : List Nat) (default : Nat)
  | ifVoid (body : List Ctrl)
  | block (body : List Ctrl)
  | loop (body : List Ctrl)
  | ret
  | unreachable

/-- How a function ends. -/
inductive End (W : Type)
  | ret (value : Option Val)
  | trap
  | invalid
  | running (x : State × W)

def State.clear (s : State) (stack : List Val) : State := { s with stack := stack }

def withStack {W : Type} (stack : List Val) (x : State × W) : State × W := (x.1.clear stack, x.2)

def Outcome.then {W : Type} (w : W) : Outcome → Labels.Flow (State × W) (End W)
  | .ok s => .next (s, w)
  | .trap => .done .trap
  | .invalid => .done .invalid

section

variable {l : Locals} {state : Nat} {W : Type} (ord : Ordinary l state W) (fuel : Nat)

mutual

/-- One piece of code; a loop takes so many turns at most. Blocks, loops and `if`s start
    without operands, and what they leave is dropped. -/
def Ctrl.run : Ctrl → State × W → Labels.Flow (State × W) (End W)
  | .other inst, x =>
    match ord.exec inst x with
    | some y => .next y
    | none => .done .trap
  | .op i, x => (i.run x.1).then x.2
  | .globalSetSp, x =>
    match x.1.stack with
    | .i32 sp :: rest => .next (x.1.clear rest, ord.setSp sp x.2)
    | _ => .done .invalid
  | .br depth, x => .br depth x
  | .brTable depths default, x =>
    match x.1.stack with
    | .i32 i :: rest => .br (depths.getD i.toNat default) (x.1.clear rest, x.2)
    | _ => .done .invalid
  | .ifVoid body, x =>
    match x.1.stack with
    | .i32 c :: rest =>
      if c ≠ 0 then (Ctrl.runAll body (withStack [] x)).close (withStack rest)
      else .next (x.1.clear rest, x.2)
    | _ => .done .invalid
  | .block body, x => (Ctrl.runAll body (withStack [] x)).close (withStack x.1.stack)
  | .loop body, x => Labels.loop (withStack []) .running (Ctrl.runAll body) fuel (withStack [] x)
  | .ret, x => .done (.ret x.1.stack.head?)
  | .unreachable, _ => .done .trap

def Ctrl.runAll : List Ctrl → State × W → Labels.Flow (State × W) (End W)
  | [], x => .next x
  | c :: rest, x => (c.run x).andThen (Ctrl.runAll rest)

end

end

/-! ## The code of a function -/

section

variable (module : Module) (fn : Function)

/-- The block into the state local, and back to the loop. -/
def dispatchGoto (block : BlockId) (extra : Nat) (target : BlockId) : List Ctrl :=
  [.op (.i32Const (BitVec.ofNat 32 target)), .op (.localSet (stateIndex module fn)),
    .br (loopDepth fn block extra)]

/-- The cases of a switch. -/
def dispatchPairs (l : Locals) (block : BlockId) (a : ValueId) : List Nat → List Ctrl
  | value :: target :: rest =>
    (switchCompare (isI64Class (fn.valueType a)) (l.index (.home a)) value).map .op ++
      .ifVoid (dispatchGoto module fn block 1 target) :: dispatchPairs l block a rest
  | _ => []

/-- One instruction in the code of a block; `none` where a lookup throws. -/
def emitInst (l : Locals) (block : BlockId) (inst : Inst) : Option (List Ctrl) :=
  match inst.op with
  | .jump => (transferBlockArgs fn l inst.a inst.args).map fun code =>
      code.map .op ++ dispatchGoto module fn block 0 inst.a
  | .branch => some [.op (.i32Const (BitVec.ofNat 32 inst.b)),
      .op (.i32Const (BitVec.ofNat 32 inst.c)), .op (.localGet (l.index (.home inst.a))),
      .op .select, .op (.localSet (stateIndex module fn)), .br (loopDepth fn block 0)]
  | .switch => some (dispatchPairs module fn l block inst.a inst.args ++
      dispatchGoto module fn block 0 inst.b)
  | .ret => some (
      (if needsFrame fn then [.op (.localGet (savedSpLocal fn)), .globalSetSp] else []) ++
      (inst.args.head?.map fun v => .op (.localGet (l.index (.home v)))).toList ++ [.ret])
  | .unreachable => some [.unreachable]
  | _ => some [.other inst]

/-- The code of a block. -/
def emitBlock (l : Locals) (b : BlockId) : Option (List Ctrl) :=
  ((fn.blocks.getD b {}).insts.mapM (emitInst module fn l b)).map List.flatten

/-- The jump table, and around it the blocks, each with the code of its block behind it. -/
def landingPads (code : BlockId → List Ctrl) : Nat → List Ctrl
  | 0 => [.op (.localGet (stateIndex module fn)), .brTable (List.range fn.blocks.length) 0]
  | k + 1 => .block (landingPads code k) :: code k

/-- The code behind the prologue. -/
def dispatchLoop : Option (List Ctrl) := do
  let l := assignLocals module fn true
  let blocks ← (List.range fn.blocks.length).mapM (emitBlock module fn l)
  return [.loop (landingPads module fn (fun b => blocks.getD b []) fn.blocks.length), .unreachable]

end

/-! ## What the terminators prescribe -/

/-- How a function is left. -/
inductive Exit
  | ret (value : Option Val)
  | trap

def Exit.toEnd {W : Type} : Exit → End W
  | .ret value => .ret value
  | .trap => .trap

/-- The condition of a branch. -/
def Val.holds : Val → Bool
  | .i32 c => c ≠ 0
  | _ => false

/-- The value that a case of a switch is for: the sign extension of what is stored at 64
    bits, and its bits otherwise. -/
def caseVal (wide : Bool) (value : Nat) : Val :=
  if wide then .i64 ((BitVec.ofNat 32 value).signExtend 64) else .i32 (BitVec.ofNat 32 value)

def casePairs : List Nat → List (Nat × BlockId)
  | value :: target :: rest => (value, target) :: casePairs rest
  | _ => []

/-- All parameters at once get what their arguments hold. -/
def Locals.assign (l : Locals) (pairs : List (ValueId × ValueId)) (s : State) : State :=
  { s with
    locals := fun i =>
      ((pairs.find? fun p => l.index (.home p.2) = i).map fun p =>
        s.locals (l.index (.home p.1))).getD (s.locals i) }

section

variable {l : Locals} {state : Nat} {W : Type} (fn : Function) (ord : Ordinary l state W)

/-- Where a terminator goes: to a block, or out of the function. -/
def terminate (l : Locals) (inst : Inst) (x : State × W) : (BlockId × State × W) ⊕ Exit :=
  match inst.op with
  | .jump => .inl (inst.a, l.assign (argPairs fn inst) x.1, x.2)
  | .branch => .inl (if (l.get (.home inst.a) x.1).holds then inst.b else inst.c, x)
  | .switch => .inl (target (caseVal (isI64Class (fn.valueType inst.a))) (casePairs inst.args)
      inst.b (l.get (.home inst.a) x.1), x)
  | .ret => .inr (.ret (inst.args.head?.map fun v => l.get (.home v) x.1))
  | _ => .inr .trap

/-- The instructions of a block, up to its terminator. -/
def runInsts : List Inst → State × W → (BlockId × State × W) ⊕ Exit
  | [], _ => .inr .trap
  | inst :: rest, x =>
    if isTerminator inst.op then terminate fn l inst x
    else match ord.exec inst x with
      | some y => runInsts rest y
      | none => .inr .trap

/-- From the entry of a block to the entry of the next. -/
def mirStep (c : BlockId × State × W) : (BlockId × State × W) ⊕ Exit :=
  runInsts fn ord (fn.blocks.getD c.1 {}).insts c.2

/-- The loop is before a turn where the function is at the entry of a block. -/
structure AtBlock (l : Locals) (state : Nat) (fn : Function) (c : BlockId × State × W)
    (x : State × W) : Prop where
  lt : c.1 < fn.blocks.length
  block : x.1.locals state = .i32 (BitVec.ofNat 32 c.1)
  same : l.Same state c.2.1 x.1
  world : x.2 = c.2.2
  typed : l.Typed x.1
  stack : x.1.stack = []

end

/-- The dispatch loop goes through the blocks that the terminators prescribe: after so many
    turns it is where the function is after so many blocks, or has ended as the function has. -/
def DispatchFaithful (module : Module) (fn : Function) : Prop :=
  ∃ code, dispatchLoop module fn = some code ∧
    ∀ (W : Type) (ord : Ordinary (assignLocals module fn true) (stateIndex module fn) W) c x,
      AtBlock (assignLocals module fn true) (stateIndex module fn) fn c x → ∀ fuel,
        Labels.Agrees End.running
          (AtBlock (assignLocals module fn true) (stateIndex module fn) fn)
          (fun exit r => r = exit.toEnd)
          (Labels.steps (mirStep fn ord) fuel c) (Ctrl.runAll ord fuel code x)

end Mirage.Wasm
