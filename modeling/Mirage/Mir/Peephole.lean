import Mirage.Mir.Fold

/-!
# The peephole pass

Four local cleanups of a function, run for sixteen rounds at most: constants are folded, results
of operations that change nothing become aliases of the operand that survives, parameters of
blocks that get the same argument from every jump are replaced by it (and unused ones dropped),
and instructions without effects are removed whose results are never used.

`remap` holds the aliases found in a sweep; until the sweep ends, operands are read through it
(`resolve`), and then they are rewritten (`applyRemap`). An instruction that would be an alias of
its own result closes a circle in it, and the source follows that for ever: here the pass gives
nothing.
-/

namespace Mirage

structure ConstVal where
  isInt : Bool := false
  isNull : Bool := false
  value : BitVec 64 := 0
  type : Ty := .void

structure PeepholeStats where
  folded : Nat := 0
  simplified : Nat := 0
  paramsRemoved : Nat := 0
  deadRemoved : Nat := 0
  deriving DecidableEq

namespace Peep

/-- Values and their constants; an entry replaces those behind it. -/
abbrev Consts := List (ValueId × ConstVal)

abbrev Remap := List (ValueId × ValueId)

/-- The value a number of aliases further. -/
def follow (remap : Remap) : Nat → ValueId → ValueId
  | 0, value => value
  | steps + 1, value =>
    match remap.lookup value with
    | none => value
    | some next => follow remap steps next

/-- The end of the chain of a value: it has no more links than there are aliases. -/
def resolve (remap : Remap) (value : ValueId) : ValueId := follow remap remap.length value

def constOf (consts : Consts) (remap : Remap) (value : ValueId) : Option ConstVal :=
  consts.lookup (resolve remap value)

def intOf (consts : Consts) (remap : Remap) (value : ValueId) : Option (BitVec 64) :=
  match constOf consts remap value with
  | some c => if c.isInt then some c.value else none
  | none => none

def scanConst (consts : Consts) (inst : Inst) : Consts :=
  match inst.op with
  | .constInt => (inst.result, { isInt := true, value := inst.imm, type := inst.type }) :: consts
  | .constNull => (inst.result, { isNull := true, type := .ptr }) :: consts
  | _ => consts

def rescanConsts (blocks : List Block) : Consts :=
  (blocks.flatMap Block.insts).foldl scanConst []

/-- The operand that an operation leaves unchanged, if any. -/
def survivorOf (inst : Inst) (intA intB : Option (BitVec 64)) : Option ValueId :=
  match inst.op with
  | .add | .or | .xor =>
    if intB = some 0 then some inst.a
    else if inst.op = .add ∧ intA = some 0 then some inst.b
    else none
  | .sub | .shl | .lshr | .ashr => if intB = some 0 then some inst.a else none
  | .mul =>
    if intB = some 1 then some inst.a
    else if intA = some 1 then some inst.b
    else none
  | .ptrAdd => if intB = some 0 then some inst.a else none
  | .ptrAddConst => if inst.imm = 0 then some inst.a else none
  | _ => none

/-! ## Folding and simplification -/

/-- What a sweep over the instructions knows. -/
structure Sweep where
  consts : Consts
  remap : Remap := []
  stats : PeepholeStats
  changed : Bool := false

def simplifyInst (pointerBits : Nat) (fn : Function) (inst : Inst) (s : Sweep) :
    Option (Inst × Sweep) :=
  let src := fn.valueType (resolve s.remap inst.a)
  let a := intOf s.consts s.remap inst.a
  let b := intOf s.consts s.remap inst.b
  match foldInst pointerBits inst src a b with
  | some (type, value) =>
    some (makeConstInt inst type value,
      { s with
        consts := (inst.result, { isInt := true, value, type }) :: s.consts
        stats := { s.stats with folded := s.stats.folded + 1 }
        changed := true })
  | none =>
    match survivorOf inst a b with
    | some survivor =>
      if resolve s.remap survivor = inst.result then none
      else some (inst,
        { s with
          remap := (inst.result, resolve s.remap survivor) :: s.remap
          stats := { s.stats with simplified := s.stats.simplified + 1 }
          changed := true })
    | none => some (inst, s)

def simplifyInsts (pointerBits : Nat) (fn : Function) :
    List Inst → Sweep → Option (List Inst × Sweep)
  | [], s => some ([], s)
  | inst :: insts, s => do
    let (inst, s) ← simplifyInst pointerBits fn inst s
    let (insts, s) ← simplifyInsts pointerBits fn insts s
    some (inst :: insts, s)

def simplifyBlocks (pointerBits : Nat) (fn : Function) :
    List Block → Sweep → Option (List Block × Sweep)
  | [], s => some ([], s)
  | block :: blocks, s => do
    let (insts, s) ← simplifyInsts pointerBits fn block.insts s
    let (blocks, s) ← simplifyBlocks pointerBits fn blocks s
    some ({ block with insts } :: blocks, s)

/-- What `apply_remap` makes of an operand. -/
def resolveOperand (remap : Remap) (value : ValueId) : ValueId :=
  if value != noValue then resolve remap value else value

def applyRemap (remap : Remap) (blocks : List Block) : List Block :=
  if remap.isEmpty then blocks
  else blocks.map fun block =>
    { block with insts := block.insts.map (mapValueOperands (resolveOperand remap)) }

def foldAndSimplify (pointerBits : Nat) (fn : Function) (stats : PeepholeStats) :
    Option (Function × PeepholeStats × Bool) := do
  let (blocks, s) ← simplifyBlocks pointerBits fn fn.blocks
    { consts := rescanConsts fn.blocks, stats }
  some ({ fn with blocks := if s.changed then applyRemap s.remap blocks else blocks },
    s.stats, s.changed)

/-! ## Trivial parameters -/

/-- The blocks that jump to a block. -/
def jumpPreds (blocks : List Block) (b : BlockId) : List BlockId :=
  (List.range blocks.length).filter fun c =>
    match (blocks.getD c {}).terminator? with
    | some term => term.op == .jump && term.a < blocks.length && term.a == b
    | none => false

def usedValues (blocks : List Block) : List ValueId :=
  ((blocks.flatMap Block.insts).flatMap valueOperands).filter (· != noValue)

/-- The arguments that a block jumps with. -/
def jumpArgs (blocks : List Block) (pred : BlockId) : List ValueId :=
  match (blocks.getD pred {}).terminator? with
  | some term => term.args
  | none => []

/-- What the arguments of the jumps for a parameter agree on, but for the parameter itself:
    `noValue` when there is nothing else, nothing when they do not agree. -/
def uniqueArg (remap : Remap) (blocks : List Block) (param : ValueId) (k : Nat) :
    List BlockId → ValueId → Option ValueId
  | [], unique => some unique
  | pred :: preds, unique =>
    match (jumpArgs blocks pred)[k]? with
    | none => none
    | some arg =>
      let arg := resolve remap arg
      if arg = param then uniqueArg remap blocks param k preds unique
      else if unique = noValue then uniqueArg remap blocks param k preds arg
      else if unique ≠ arg then none
      else uniqueArg remap blocks param k preds unique

/-- A block whose jump passes one argument less. -/
def eraseArg (k : Nat) (block : Block) : Block :=
  match block.insts.getLast? with
  | some term =>
    { block with insts := block.insts.dropLast ++ [{ term with args := term.args.eraseIdx k }] }
  | none => block

/-- A parameter and its column of arguments are erased. -/
def eraseParam (preds : List BlockId) (b : BlockId) (k : Nat) (blocks : List Block) : List Block :=
  preds.foldl (fun blocks pred => blocks.modify pred (eraseArg k))
    (blocks.modify b fun block => { block with params := block.params.eraseIdx k })

/-- What the sweep over the parameters has got to. -/
structure ParamSweep where
  blocks : List Block
  remap : Remap := []
  stats : PeepholeStats
  changed : Bool := false

/-- The parameters of a block from the `k`-th on, so many of them. -/
def foldParams (preds : List BlockId) (used : List ValueId) (b : BlockId) :
    Nat → Nat → ParamSweep → ParamSweep
  | 0, _, s => s
  | n + 1, k, s =>
    match (s.blocks.getD b {}).params[k]? with
    | none => s
    | some param =>
      let unused := !used.contains param
      match uniqueArg s.remap s.blocks param k preds noValue with
      | none => foldParams preds used b n (k + 1) s
      | some unique =>
        -- every jump passes the parameter itself: a loop that is not entered
        if unique = noValue ∧ unused = false then foldParams preds used b n (k + 1) s
        else
          foldParams preds used b n k
            { blocks := eraseParam preds b k s.blocks
              remap := if unused then s.remap else (param, unique) :: s.remap
              stats := { s.stats with paramsRemoved := s.stats.paramsRemoved + 1 }
              changed := true }

/-- The parameters of the entry are the ones of the function, and stay. -/
def foldTrivialParams (fn : Function) (stats : PeepholeStats) : Function × PeepholeStats × Bool :=
  let used := usedValues fn.blocks
  let s := ((List.range fn.blocks.length).drop 1).foldl (fun s b =>
    let params := (s.blocks.getD b {}).params
    let preds := jumpPreds fn.blocks b
    if params.isEmpty || preds.isEmpty then s
    else foldParams preds used b params.length 0 s) ({ blocks := fn.blocks, stats } : ParamSweep)
  ({ fn with blocks := if s.changed then applyRemap s.remap s.blocks else s.blocks },
    s.stats, s.changed)

/-! ## Dead values -/

def isDead (used : List ValueId) (inst : Inst) : Bool :=
  isPure inst.op && inst.result != noValue && !used.contains inst.result

def removeDead (fn : Function) (stats : PeepholeStats) : Function × PeepholeStats × Bool :=
  let used := usedValues fn.blocks
  let removed := (fn.blocks.flatMap Block.insts).countP (isDead used)
  ({ fn with blocks := fn.blocks.map fun block =>
      { block with insts := block.insts.filter fun inst => !isDead used inst } },
    { stats with deadRemoved := stats.deadRemoved + removed }, removed != 0)

/-! ## Rounds -/

def round (pointerBits : Nat) (fn : Function) (stats : PeepholeStats) :
    Option (Function × PeepholeStats × Bool) := do
  let (fn, stats, folded) ← foldAndSimplify pointerBits fn stats
  let (fn, stats, dropped) := foldTrivialParams fn stats
  let (fn, stats, removed) := removeDead fn stats
  some (fn, stats, folded || dropped || removed)

/-- Rounds until nothing changes, so many of them at most. -/
def rounds (pointerBits : Nat) : Nat → Function → PeepholeStats → Option (Function × PeepholeStats)
  | 0, fn, stats => some (fn, stats)
  | n + 1, fn, stats => do
    let (fn, stats, changed) ← round pointerBits fn stats
    if changed then rounds pointerBits n fn stats else some (fn, stats)

/-- The positions of the values of a block. -/
def placeBlock (values : List ValueDef) (b : BlockId) (block : Block) : List ValueDef :=
  let values := block.params.zipIdx.foldl (fun values (p, k) =>
    values.modify p fun value => { value with block := b, index := k, isParam := true }) values
  block.insts.zipIdx.foldl (fun values (inst, i) =>
    if inst.result != noValue && inst.result < values.length then
      values.modify inst.result fun value => { value with block := b, index := i, isParam := false }
    else values) values

def placeValues (fn : Function) : Function :=
  let place values := fun (block, b) => placeBlock values b block
  { fn with values := fn.blocks.zipIdx.foldl place fn.values }

def runFunction (pointerBits : Nat) (fn : Function) (stats : PeepholeStats) :
    Option (Function × PeepholeStats) :=
  if !fn.hasBody || fn.blocks.isEmpty then some (fn, stats)
  else do
    let (fn, stats) ← rounds pointerBits 16 fn stats
    some (placeValues fn, stats)

def runFunctions (pointerBits : Nat) :
    List Function → PeepholeStats → Option (List Function × PeepholeStats)
  | [], stats => some ([], stats)
  | fn :: fns, stats => do
    let (fn, stats) ← runFunction pointerBits fn stats
    let (fns, stats) ← runFunctions pointerBits fns stats
    some (fn :: fns, stats)

end Peep

def peephole (module : Module) : Option (Module × PeepholeStats) := do
  let (functions, stats) ← Peep.runFunctions module.pointerBits module.functions {}
  some ({ module with functions }, stats)

end Mirage
