import Mirage.Lang.Ast

/-!
# The typestate of error locals

A local of an error type is *Ok* or *Failed* at run time, and a `match` or `switch` on it
reads the payload only a failed one has. The checker follows each error local through
the function in one pass: its scope gives every local the state that is known of it, a
condition narrows the states of the locals it tests, an assignment forgets what was known,
and a `match` is accepted only where the state is `failed`.

`checkExpr` and `checkStmt` are the part of the checker that moves these states.
They take the scope before a node to the scope after it, or to `none` when the node is
reported. The branches of a node are checked in *copies* of the scope: `copied` is
where the changes of a copy are dropped.

What the checker knows of types is a parameter, `Types`.
-/

namespace Mirage.Typestate

open Ast

/-- Which expressions and which declared variables have an error type. -/
structure Types where
  expr : ExprKey → Bool
  decl : DeclId → Bool

inductive ErrorState
  | notApplicable | unknown | ok | failed
  deriving DecidableEq, Repr

structure LocalBinding where
  isError : Bool
  errState : ErrorState := .notApplicable
  deriving DecidableEq, Repr

/-- The locals in scope. -/
abbrev LocalScope := Name → Option LocalBinding

namespace LocalScope

def set (locals : LocalScope) (x : Name) (b : LocalBinding) : LocalScope := fun y =>
  if y = x then some b else locals y

/-- The state of a local that has one. -/
def setState (locals : LocalScope) (x : Name) (s : ErrorState) : LocalScope := fun y =>
  if y = x then (locals y).map fun b => { b with errState := s } else locals y

/-- Forget the state of a local that is tracked. -/
def invalidate (locals : LocalScope) (x : Name) : LocalScope :=
  match locals x with
  | some b => if b.errState ≠ .notApplicable then locals.setState x .unknown else locals
  | none => locals

end LocalScope

/-- The name is a local of an error type. -/
def findErrorLocal (locals : LocalScope) (x : Name) : Bool :=
  match locals x with
  | some b => b.isError
  | none => false

/-! ## Narrowing -/

/-- `err` or `!err`, with the name and whether it is negated. -/
def matchErrorOperand (locals : LocalScope) : Expr → Option (Name × Bool)
  | .ident _ x => if findErrorLocal locals x then some (x, false) else none
  | .unary _ .logicalNot (.ident _ x) => if findErrorLocal locals x then some (x, true) else none
  | _ => none

/-- The operands of a chain of one operator. -/
def flattenLogicalChain (op : BinaryOp) : Expr → List Expr
  | .binary k op' lhs rhs =>
    if op' = op then flattenLogicalChain op lhs ++ flattenLogicalChain op rhs
    else [.binary k op' lhs rhs]
  | e => [e]

/-- What a condition says of a local in its two branches. -/
structure ConditionNarrowing where
  varName : Name
  thenState : ErrorState
  elseState : ErrorState
  isExactErr : Bool := false
  isExactNotErr : Bool := false

/-- One more operand of an `&&` chain: it holds in the then-branch. A local named twice in
    contradictory ways is unknown there. -/
def narrowAnd (locals : LocalScope) (result : List ConditionNarrowing) (operand : Expr) :
    List ConditionNarrowing :=
  match matchErrorOperand locals operand with
  | none => result
  | some (x, negated) =>
    let state := if negated then ErrorState.ok else .failed
    if result.any (·.varName = x) then
      result.map fun n =>
        if n.varName = x ∧ n.thenState ≠ state then { n with thenState := .unknown } else n
    else result ++ [{ varName := x, thenState := state, elseState := .unknown }]

/-- One more operand of an `||` chain: it fails in the else-branch. -/
def narrowOr (locals : LocalScope) (result : List ConditionNarrowing) (operand : Expr) :
    List ConditionNarrowing :=
  match matchErrorOperand locals operand with
  | none => result
  | some (x, negated) =>
    let state := if negated then ErrorState.failed else .ok
    if result.any (·.varName = x) then
      result.map fun n =>
        if n.varName = x ∧ n.elseState ≠ state then { n with elseState := .unknown } else n
    else result ++ [{ varName := x, thenState := .unknown, elseState := state }]

def computeConditionNarrowing (locals : LocalScope) (condition : Expr) :
    List ConditionNarrowing :=
  match matchErrorOperand locals condition with
  | some (x, true) => [⟨x, .ok, .failed, false, true⟩]
  | some (x, false) => [⟨x, .failed, .ok, true, false⟩]
  | none =>
    match condition with
    | .binary _ .logicalAnd _ _ =>
      (flattenLogicalChain .logicalAnd condition).foldl (narrowAnd locals) []
    | .binary _ .logicalOr _ _ =>
      (flattenLogicalChain .logicalOr condition).foldl (narrowOr locals) []
    | _ => []

def ConditionNarrowing.state (n : ConditionNarrowing) (thenBranch : Bool) : ErrorState :=
  if thenBranch then n.thenState else n.elseState

/-- The scope of a branch. -/
def applyConditionNarrowing (scope : LocalScope) (narrowings : List ConditionNarrowing)
    (thenBranch : Bool) : LocalScope :=
  narrowings.foldl (fun scope n =>
    if findErrorLocal scope n.varName then scope.setState n.varName (n.state thenBranch)
    else scope) scope

/-- The scope of a branch of a condition. -/
def branch (locals : LocalScope) (condition : Expr) (thenBranch : Bool) : LocalScope :=
  applyConditionNarrowing locals (computeConditionNarrowing locals condition) thenBranch

def stateIn (locals : LocalScope) (x : Name) : ErrorState :=
  match locals x with
  | some b => b.errState
  | none => .unknown

/-- The scope after two branches: a state is known if both agree on it. -/
def mergeErrorStates (target a b : LocalScope) : LocalScope := fun x =>
  (target x).map fun t =>
    if t.errState = .notApplicable then t
    else if stateIn a x = stateIn b x then { t with errState := stateIn a x }
    else { t with errState := .unknown }

/-! ## Expressions -/

/-- The binding of a declared variable; one that is bound by a pattern or a loop is not
    tracked. -/
def LocalScope.declare (T : Types) (locals : LocalScope) (d : Decl) (tracked : Bool) : LocalScope :=
  locals.set d.name ⟨T.decl d.id, if tracked && T.decl d.id then .unknown else .notApplicable⟩

/-- A variable that a pattern or a loop binds, unless it is omitted. -/
def LocalScope.capture (T : Types) (locals : LocalScope) (d : Option Decl) : LocalScope :=
  match d with
  | some d => if d.name ≠ "_" then locals.declare T d false else locals
  | none => locals

/-- The operand of a `match` has an error type. -/
def operandIsError (T : Types) (locals : LocalScope) : Expr → Bool
  | .ident k x =>
    match locals x with
    | some b => b.isError
    | none => T.expr k
  | e => T.expr e.key

/-- A `match` on an error is accepted on a local that is known to have failed. -/
def checkMatchOperand (T : Types) (locals : LocalScope) (operand : Expr) : Bool :=
  if operandIsError T locals operand then
    match operand with
    | .ident _ x => findErrorLocal locals x && stateIn locals x = .failed
    | _ => false
  else true

/-- Check in a copy of the scope. -/
def copied (locals : LocalScope) (result : Option LocalScope) : Option LocalScope :=
  result.map fun _ => locals

mutual

/-- The scope after an expression. -/
def checkExpr (T : Types) (locals : LocalScope) : Expr → Option LocalScope
  | .literalInteger .. | .literalString .. | .literalChar .. | .literalBool .. | .leaf ..
  | .ident .. | .dotIdent .. | .importExpr .. | .bitsetExpr .. => some locals
  | .unary _ op operand => do
    let locals ← checkExpr T locals operand
    match op, operand with
    | .addressOf, .ident _ x => some (locals.invalidate x)
    | _, _ => some locals
  | .binary _ _ lhs rhs => do
    let locals ← checkExpr T locals lhs
    checkExpr T locals rhs
  | .ternary _ condition thenExpr elseExpr | .whenExpr _ condition thenExpr elseExpr => do
    let locals ← checkExpr T locals condition
    let _ ← checkExpr T (branch locals condition true) thenExpr
    copied locals (checkExpr T (branch locals condition false) elseExpr)
  | .assign _ target value => do
    let locals ← checkExpr T locals target
    -- the value is checked before the state of the target is forgotten
    let locals ← checkExpr T locals value
    match target with
    | .ident _ x => some (locals.invalidate x)
    | _ => some locals
  | .call _ callee args => do
    let locals ← checkExpr T locals callee
    checkExprs T locals args
  | .sizeOf _ operand | .alignOf _ operand | .typeOf _ operand => checkExpr T locals operand
  -- a default is checked in an empty scope
  | .option _ _ defaultValue => copied locals (checkExprs T (fun _ => none) defaultValue)
  | .cast _ value => checkExpr T locals value
  | .member _ object _ => checkExpr T locals object
  | .structExpr _ _ values => checkExprs T locals values
  | .arrayExpr _ values => checkExprs T locals values
  | .matchExpr _ operand arms => do
    let locals ← checkExpr T locals operand
    if checkMatchOperand T locals operand then copied locals (checkMatchArms T locals arms)
    else none
  | .compound _ _ operands => checkExprs T locals operands

def checkExprs (T : Types) (locals : LocalScope) : List Expr → Option LocalScope
  | [] => some locals
  | e :: es => do
    let locals ← checkExpr T locals e
    checkExprs T locals es

/-- The arms of a `match`, each in a copy of the scope. Their patterns are constants, which
    change no state. -/
def checkMatchArms (T : Types) (locals : LocalScope) : List MatchArm → Option LocalScope
  | [] => some locals
  | .variant _ capture value :: arms => do
    let _ ← checkExpr T (locals.capture T capture) value
    checkMatchArms T locals arms
  | .literal _ value :: arms => do
    let _ ← checkExpr T locals value
    checkMatchArms T locals arms
  | .default value :: arms => do
    let _ ← checkExpr T locals value
    checkMatchArms T locals arms

end

/-! ## Statements -/

mutual

/-- Every path through the statement leaves the function or the loop around it. -/
def stmtAlwaysExits : Stmt → Bool
  | .block stmts => lastAlwaysExits stmts
  | .ifElse _ thenStmt elseStmt => stmtAlwaysExits thenStmt && stmtAlwaysExits elseStmt
  | .switchStmt _ arms => arms.any SwitchArm.isDefault && armsAlwaysExit arms
  | .returnStmt _ | .returnErr _ | .returnOk _ | .breakStmt | .continueStmt => true
  | _ => false

def lastAlwaysExits : List Stmt → Bool
  | [] => false
  | [s] => stmtAlwaysExits s
  | _ :: s :: stmts => lastAlwaysExits (s :: stmts)

def armsAlwaysExit : List SwitchArm → Bool
  | [] => true
  | .variant _ _ body :: arms => stmtAlwaysExits body && armsAlwaysExit arms
  | .literal _ body :: arms => stmtAlwaysExits body && armsAlwaysExit arms
  | .default body :: arms => stmtAlwaysExits body && armsAlwaysExit arms

end

/-- How deep a statement lies in loops, and the depth of the `defer` it belongs to. -/
structure Nesting where
  loopDepth : Nat := 0
  deferLoopBase : Option Nat := none

def Nesting.loop (n : Nesting) : Nesting := { n with loopDepth := n.loopDepth + 1 }

def Nesting.defer (n : Nesting) : Nesting := { n with deferLoopBase := some n.loopDepth }

/-- A `break` or `continue` is inside a loop and does not leave a `defer`. -/
def Nesting.mayBreak (n : Nesting) : Bool :=
  0 < n.loopDepth && match n.deferLoopBase with
    | some base => base < n.loopDepth
    | none => true

/-- The scope after a list of declared names. -/
def declareGroup (T : Types) (locals : LocalScope) (decls : List Decl) : LocalScope :=
  decls.foldl (fun locals d =>
    if d.name ≠ "" ∧ d.name ≠ "_" then locals.declare T d true else locals) locals

/-- The condition is `!err`, its branch is never left at the end, and there is no
    `else`: after the statement the local has failed. -/
def earlyExit (locals : LocalScope) (condition : Expr) (thenStmt : Stmt) : Option Name :=
  if stmtAlwaysExits thenStmt then
    ((computeConditionNarrowing locals condition).find? (·.isExactNotErr)).map (·.varName)
  else none

mutual

/-- The scope after a statement. -/
def checkStmt (T : Types) (n : Nesting) (locals : LocalScope) : Stmt → Option LocalScope
  | .block stmts => copied locals (checkStmts T n locals stmts)
  | .ifThen condition thenStmt => do
    let locals ← checkExpr T locals condition
    let thenLocals ← checkStmt T n (branch locals condition true) thenStmt
    match earlyExit locals condition thenStmt with
    | some x => some (locals.setState x .failed)
    | none => some (mergeErrorStates locals thenLocals (branch locals condition false))
  | .ifElse condition thenStmt elseStmt => do
    let locals ← checkExpr T locals condition
    let thenLocals ← checkStmt T n (branch locals condition true) thenStmt
    let elseLocals ← checkStmt T n (branch locals condition false) elseStmt
    some (mergeErrorStates locals thenLocals elseLocals)
  | .whileStmt condition body => do
    let locals ← checkExpr T locals condition
    let bodyLocals ← checkStmt T n.loop (branch locals condition true) body
    some (mergeErrorStates locals locals bodyLocals)
  | .forIn index element iterable body => do
    let locals ← checkExpr T locals iterable
    copied locals
      (checkStmt T n.loop ((locals.capture T (some index)).capture T (some element)) body)
  | .switchStmt operand arms => do
    let locals ← checkExpr T locals operand
    if checkMatchOperand T locals operand then copied locals (checkSwitchArms T n locals arms)
    else none
  | .exprStmt expr => checkExpr T locals expr
  | .varDecl decl init => do
    let locals ← checkExprs T locals init.toList
    some (locals.declare T decl true)
  | .varDeclGroup decls init => do
    let locals ← checkExpr T locals init
    some (declareGroup T locals decls)
  | .continueStmt | .breakStmt => if n.mayBreak then some locals else none
  | .returnStmt values | .returnOk values =>
    if n.deferLoopBase = none then checkExprs T locals values else none
  | .returnErr value => if n.deferLoopBase = none then checkExpr T locals value else none
  -- the body is checked where it is registered, not in a copy
  | .deferStmt body => checkStmt T n.defer locals body
  | .whenStmt _ condition thenBlock elseBlock => do
    let locals ← checkExpr T locals condition
    let _ ← checkStmts T n locals thenBlock
    copied locals (checkStmts T n locals elseBlock)
  | .asmStmt _ => some locals

def checkStmts (T : Types) (n : Nesting) (locals : LocalScope) : List Stmt → Option LocalScope
  | [] => some locals
  | s :: stmts => do
    let locals ← checkStmt T n locals s
    checkStmts T n locals stmts

def checkSwitchArms (T : Types) (n : Nesting) (locals : LocalScope) :
    List SwitchArm → Option LocalScope
  | [] => some locals
  | .variant _ capture body :: arms => do
    let _ ← checkStmt T n (locals.capture T capture) body
    checkSwitchArms T n locals arms
  | .literal _ body :: arms => do
    let _ ← checkStmt T n locals body
    checkSwitchArms T n locals arms
  | .default body :: arms => do
    let _ ← checkStmt T n locals body
    checkSwitchArms T n locals arms

end

/-- The scope in which a function body is checked: its parameters, untracked. -/
def entryScope (T : Types) (params : List Decl) : LocalScope :=
  params.foldl (fun locals d => locals.declare T d false) fun _ => none

/-- The checker accepts the body of a function. -/
def Accepted (T : Types) (params : List Decl) (body : Stmt) : Prop :=
  (checkStmt T {} (entryScope T params) body).isSome

instance (T : Types) (params : List Decl) (body : Stmt) : Decidable (Accepted T params body) :=
  inferInstanceAs (Decidable (_ = true))

end Mirage.Typestate
