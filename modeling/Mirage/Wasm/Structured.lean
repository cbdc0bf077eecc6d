import Mirage.Wasm.EmitInt

/-!
# Structured control flow in WebAssembly

Code with `if`s and branches (`Code`) over the straight-line instructions, and the two
ways the backend writes a `switch`.

In the structured form a block of the function is entered by a `br` to its label, when it
is a loop header or a merge node, or else by its tree of code in place (`doBranch`); the
labels in scope are the `nest`. In the dispatch form the block goes to the state local,
and a `br` leads to the loop that reads it.
-/

namespace Mirage.Wasm

/-! ## Code -/

/-- Structured code. `tree b` is the code of the dominator tree under the block `b`. -/
inductive Code
  | op (i : Instr)
  | br (depth : Nat)
  | tree (b : BlockId)
  | ifVoid (body : List Code)

/-- How a piece of code ends. -/
inductive Flow
  | next (s : State)
  | br (depth : Nat) (s : State)
  | tree (b : BlockId) (s : State)
  | trap
  | invalid

def Outcome.flow : Outcome → Flow
  | .ok s => .next s
  | .trap => .trap
  | .invalid => .invalid

/-- Leaving an `if` without results: the operands of its body are dropped, and a branch to
    its own label goes on after it. -/
def Flow.leaveIf (stack : List Val) : Flow → Flow
  | .next s => .next { s with stack := stack }
  | .br 0 s => .next { s with stack := stack }
  | .br (depth + 1) s => .br depth { s with stack := stack }
  | .tree b s => .tree b { s with stack := stack }
  | .trap => .trap
  | .invalid => .invalid

mutual

def Code.run : Code → State → Flow
  | .op i, s => (i.run s).flow
  | .br depth, s => .br depth s
  | .tree b, s => .tree b s
  | .ifVoid body, s =>
    match s.stack with
    | .i32 c :: rest =>
      if c ≠ 0 then (runCode body { s with stack := [] }).leaveIf rest
      else .next { s with stack := rest }
    | _ => .invalid

def runCode : List Code → State → Flow
  | [], s => .next s
  | c :: rest, s =>
    match c.run s with
    | .next s' => runCode rest s'
    | flow => flow

end

/-- Straight-line code runs as before. -/
theorem runCode_ops (code : List Instr) (rest : List Code) (s : State) :
    runCode (code.map .op ++ rest) s =
      match run code s with
      | .ok s' => runCode rest s'
      | .trap => .trap
      | .invalid => .invalid := by
  induction code generalizing s with
  | nil => rfl
  | cons i code ih =>
    rw [List.map_cons, List.cons_append, runCode, Code.run, run_cons]
    cases i.run s with
    | ok s' => exact ih s'
    | trap => rfl
    | invalid => rfl

/-! ## Labels -/

inductive NestKind
  | block | loop | cond
  deriving DecidableEq

/-- A label in scope, and the block it is for. -/
structure NestEntry where
  kind : NestKind
  block : BlockId
  deriving DecidableEq

/-- What `do_branch` reads of the control-flow analysis. -/
structure Cfg where
  rpoIndex : BlockId → Nat
  isMerge : BlockId → Bool

def Cfg.isBackEdge (cfg : Cfg) (src dst : BlockId) : Bool :=
  cfg.rpoIndex dst ≤ cfg.rpoIndex src

/-- The depth of the label of a block, counted from the innermost label; `none` where the
    source reports that the target is not in scope. -/
def labelDepth (nest : List NestEntry) (target : BlockId) (retreating : Bool) : Option Nat :=
  nest.findIdx? fun e => e.block = target && e.kind = if retreating then .loop else .block

/-- Entering a block from the end of another. -/
def doBranch (cfg : Cfg) (nest : List NestEntry) (src dst : BlockId) : Option (List Code) :=
  if cfg.isBackEdge src dst then (labelDepth nest dst true).map fun d => [.br d]
  else if cfg.isMerge dst then (labelDepth nest dst false).map fun d => [.br d]
  else some [.tree dst]

/-- Control reaches the block with the state `s`: by its label, or at its tree. -/
def Flow.Enters (nest : List NestEntry) (b : BlockId) (s : State) (flow : Flow) : Prop :=
  flow = .tree b s ∨ ∃ d kind, flow = .br d s ∧ kind ≠ .cond ∧ nest[d]? = some ⟨kind, b⟩

theorem enters_of_labelDepth {nest : List NestEntry} {b : BlockId} {retreating : Bool} {d : Nat}
    (h : labelDepth nest b retreating = some d) (s : State) :
    (Flow.br d s).Enters nest b s := by
  obtain ⟨hlt, hd, -⟩ := List.findIdx?_eq_some_iff_getElem.1 h
  simp only [Bool.and_eq_true, decide_eq_true_eq] at hd
  refine .inr ⟨d, nest[d].kind, rfl, ?_, ?_⟩
  · rw [hd.2]
    split_ifs <;> simp
  · rw [List.getElem?_eq_getElem hlt, ← hd.1]

/-- The code of `do_branch` enters the block. -/
theorem enters_doBranch {cfg : Cfg} {nest : List NestEntry} {src dst : BlockId}
    {code : List Code} (h : doBranch cfg nest src dst = some code) (s : State) :
    (runCode code s).Enters nest dst s := by
  rw [doBranch] at h
  split_ifs at h
  · obtain ⟨d, hd, rfl⟩ := Option.map_eq_some_iff.1 h
    exact enters_of_labelDepth hd s
  · obtain ⟨d, hd, rfl⟩ := Option.map_eq_some_iff.1 h
    exact enters_of_labelDepth hd s
  · cases h
    exact .inl rfl

/-- A block entered inside an `if` is entered from where the `if` stands. -/
theorem Flow.Enters.leaveIf {nest : List NestEntry} {b : BlockId} {s : State} {flow : Flow}
    {other : BlockId} (h : flow.Enters (⟨.cond, other⟩ :: nest) b { s with stack := [] })
    (stack : List Val) :
    (flow.leaveIf stack).Enters nest b { s with stack := stack } := by
  rcases h with rfl | ⟨d, kind, rfl, hkind, hd⟩
  · exact .inl rfl
  · cases d with
    | zero =>
      cases hd
      exact absurd rfl hkind
    | succ d => exact .inr ⟨d, kind, rfl, hkind, hd⟩

/-- What comes after the entry of a block is not run. -/
theorem Flow.Enters.followed {nest : List NestEntry} {b : BlockId} {s : State} {flow : Flow}
    (h : flow.Enters nest b s) (rest : List Code) :
    (match flow with
      | .next s' => runCode rest s'
      | flow => flow).Enters nest b s := by
  rcases h with rfl | ⟨d, kind, rfl, hkind, hd⟩
  · exact .inl rfl
  · exact .inr ⟨d, kind, rfl, hkind, hd⟩

/-! ## The switch -/

/-- The comparison of a `switch` with a case value: at 64 bits with its sign extension,
    at 32 bits with its raw pattern. -/
def switchCompare (wide : Bool) (v : ValueId) (value : Nat) : List Instr :=
  .localGet v ::
    if wide then [.i64Const ((BitVec.ofNat 32 value).signExtend 64), .i64Rel .eq]
    else [.i32Const (BitVec.ofNat 32 value), .i32Rel .eq]

/-- The cases of a structured switch. -/
def structuredCases (cfg : Cfg) (nest : List NestEntry) (block : BlockId) (wide : Bool)
    (v : ValueId) : List Nat → Option (List Code)
  | value :: target :: rest => do
    let body ← doBranch cfg (⟨.cond, noValue⟩ :: nest) block target
    let code ← structuredCases cfg nest block wide v rest
    some ((switchCompare wide v value).map .op ++ .ifVoid body :: code)
  | _ => some []

/-- The structured form of a switch at the end of a block. -/
def structuredSwitch (fn : Function) (cfg : Cfg) (nest : List NestEntry) (block : BlockId)
    (inst : Inst) : Option (List Code) := do
  let cases ← structuredCases cfg nest block (isI64Class (fn.valueType inst.a)) inst.a inst.args
  let last ← doBranch cfg nest block inst.b
  some (cases ++ last)

/-- The local that holds the next block of the dispatch loop; it comes before those of
    the values, which are named by the values here. -/
def stateLocal (fn : Function) : ValueId := fn.values.length

/-- The depth of the dispatch loop as seen from the code of a block. -/
def loopDepth (fn : Function) (block : BlockId) (extra : Nat) : Nat :=
  fn.blocks.length - 1 - block + extra

/-- Going to a block by the dispatch loop. -/
def dispatchTo (fn : Function) (block : BlockId) (extra : Nat) (target : BlockId) : List Code :=
  [.op (.i32Const (BitVec.ofNat 32 target)), .op (.localSet (stateLocal fn)),
    .br (loopDepth fn block extra)]

def dispatchCases (fn : Function) (block : BlockId) (wide : Bool) (v : ValueId) :
    List Nat → List Code
  | value :: target :: rest =>
    (switchCompare wide v value).map .op ++ .ifVoid (dispatchTo fn block 1 target) ::
      dispatchCases fn block wide v rest
  | _ => []

/-- The dispatch form of a switch at the end of a block. -/
def dispatchSwitch (fn : Function) (block : BlockId) (inst : Inst) : List Code :=
  dispatchCases fn block (isI64Class (fn.valueType inst.a)) inst.a inst.args ++
    dispatchTo fn block 0 inst.b

end Mirage.Wasm
