import Mirage.Lang.Typestate
import Mirage.Lib.Run

/-!
# Runs of a function and the state of its error locals

What happens to the error locals of a function when it runs: `eval` and `exec` follow the
control flow of expressions and statements, with a store that says which error locals
have failed. Whatever else decides a run (the value of a condition that is not an error
local, the error a call returns, a store through a pointer) is a `World`, an arbitrary
stream of choices, so that the theorems hold for every execution. A run is cut off
after a number of steps; every state an execution reaches is reached by such a run.

A run emits the points it passes, each with the scope the checker has there
(`Event.point`), and the error locals it matches on (`Event.matched`).

It also emits where a *nested* part of the program is left for what follows it
(`Event.left`): a block, a loop body, an arm, a branch of a conditional expression, the
right operand of a logical operator, a call that may store through a pointer, and the way
from a `defer` to its deferred body. The event is `Settled` when the part has left the error
locals around it as failed or as well as they were.
-/

namespace Mirage.Typestate

open Ast

abbrev Loc := Nat

/-- Which error locals have failed. -/
abbrev Store := Loc → Bool

/-- The variables in scope, innermost first, with the location of those that are
    error locals. -/
abbrev Env := List (Name × Option Loc)

def Env.find (env : Env) (x : Name) : Option Loc := (env.lookup x).join

inductive Event
  | point (locals : LocalScope) (env : Env) (store : Store)
  | matched (x : Name) (env : Env) (store : Store)
  | left (env : Env) (before after : Store)

/-- What a step takes from outside the program. -/
structure Choice where
  bit : Bool := false
  index : Nat := 0
  store : Store := fun _ => false

abbrev World := Nat → Choice

/-- A deferred body, with the scope, the variables and the store at its `defer`. -/
structure Deferred where
  body : Stmt
  nesting : Nesting
  locals : LocalScope
  env : Env
  store : Store

structure State where
  store : Store
  next : Loc
  tick : Nat
  /-- The deferred bodies of the innermost block, the last one first. -/
  defers : List Deferred

/-- The locals in scope are as failed or as well as before. -/
def settled (env : Env) (before after : Store) : Bool :=
  env.all fun p =>
    match env.find p.1 with
    | some l => before l == after l
    | none => true

/-- A nested part is left settled. -/
def Event.Settled : Event → Prop
  | .left env before after => settled env before after = true
  | _ => True

instance : DecidablePred Event.Settled
  | .left env before after => inferInstanceAs (Decidable (settled env before after = true))
  | .point .. | .matched .. => .isTrue trivial

/-- The scope after an accepted expression. -/
def after (T : Types) (locals : LocalScope) (e : Expr) : LocalScope :=
  (checkExpr T locals e).getD locals

/-- The scope after an accepted statement. -/
def afterStmt (T : Types) (n : Nesting) (locals : LocalScope) (s : Stmt) : LocalScope :=
  (checkStmt T n locals s).getD locals

/-- How a statement ends. -/
inductive Flow
  | normal (env : Env)
  | breaks
  | continues
  | returns

/-- The names a statement declares are gone after it. -/
def Flow.within (env : Env) : Flow → Flow
  | .normal _ => .normal env
  | o => o

section

variable (T : Types) (ω : World)

/-! ## Steps -/

def choose : Run State Event Choice := fun σ => (some (ω σ.tick), { σ with tick := σ.tick + 1 }, [])

def passPoint (locals : LocalScope) (env : Env) : Run State Event Unit :=
  Run.emit fun σ => .point locals env σ.store

/-- A nested part is left. -/
def leave (env : Env) (before : Store) : Run State Event Unit :=
  Run.emit fun σ => .left env before σ.store

/-- A store through a pointer. -/
def effect (env : Env) : Run State Event Unit := do
  let before ← Run.get State.store
  let c ← choose ω
  Run.modify fun σ => { σ with store := c.store }
  leave env before

/-- An assignment to a variable. -/
def assignLocal (env : Env) (x : Name) : Run State Event Unit := do
  let c ← choose ω
  match env.find x with
  | some l =>
    Run.modify fun σ => { σ with store := fun l' => if l' = l then c.bit else σ.store l' }
  | none => pure ()

/-- A new variable: the environment with it. -/
def bindDecl (env : Env) (d : Decl) : Run State Event Env := do
  if T.decl d.id then
    let c ← choose ω
    let l ← Run.get State.next
    Run.modify fun σ =>
      { σ with next := l + 1, store := fun l' => if l' = l then c.bit else σ.store l' }
    pure ((d.name, some l) :: env)
  else pure ((d.name, none) :: env)

/-- A variable of a pattern or a loop. -/
def bindCapture (env : Env) (d : Option Decl) : Run State Event Env :=
  match d with
  | some d => if d.name ≠ "_" then bindDecl T ω env d else pure env
  | none => pure env

/-- A match on an error local. -/
def matchOperand (env : Env) (operand : Expr) : Run State Event Unit :=
  match operand with
  | .ident _ x => Run.emit fun σ => .matched x env σ.store
  | _ => pure ()

/-! ## Expressions -/

/-- The subexpressions an expression evaluates before it does anything itself. The operands
    of `size_of` and the like, and the defaults of options, are never evaluated. -/
def operands : Expr → List Expr
  | .unary _ _ operand => [operand]
  | .binary _ _ lhs rhs => [lhs, rhs]
  | .assign _ target value => [target, value]
  | .call _ callee args => callee :: args
  | .cast _ value => [value]
  | .member _ object _ => [object]
  | .structExpr _ _ values | .arrayExpr _ values => values
  | .compound _ _ es => es
  | _ => []

/-- The expressions that may store through a pointer. -/
def mayStore : Expr → Bool
  | .assign .. | .call .. | .compound .. => true
  | _ => false

mutual

/-- The value of an expression, where it is a condition. -/
def eval : Nat → LocalScope → Env → Expr → Run State Event Bool
  | 0, _, _, _ => Run.stop
  | n + 1, locals, env, e => do
    passPoint locals env
    match e with
    | .ident _ x =>
      match env.find x with
      | some l => Run.get fun σ => σ.store l
      | none => return (← choose ω).bit
    | .unary _ .logicalNot operand => return !(← eval n locals env operand)
    | .binary _ .logicalAnd lhs rhs =>
      let l ← eval n locals env lhs
      if l then evalLast n (after T locals lhs) env rhs else pure false
    | .binary _ .logicalOr lhs rhs =>
      let l ← eval n locals env lhs
      if l then pure true else evalLast n (after T locals lhs) env rhs
    | .ternary _ condition thenExpr elseExpr | .whenExpr _ condition thenExpr elseExpr =>
      let v ← eval n locals env condition
      evalLast n (branch (after T locals condition) condition v) env
        (if v then thenExpr else elseExpr)
    | .assign _ (.ident _ x) value =>
      let _ ← eval n locals env value
      assignLocal ω env x
      return (← choose ω).bit
    | .matchExpr _ operand arms =>
      let _ ← eval n locals env operand
      matchOperand env operand
      let locals := after T locals operand
      let c ← choose ω
      match arms[c.index]? with
      | some arm =>
        let before ← Run.get State.store
        let inner ← bindCapture T ω env arm.capture
        let v ← eval n (locals.capture T arm.capture) inner arm.value
        leave env before
        pure v
      | none => return c.bit
    | e =>
      evals n locals env (operands e)
      if mayStore e then effect ω env
      return (← choose ω).bit

/-- The right operand of a logical operator, or a branch. -/
def evalLast : Nat → LocalScope → Env → Expr → Run State Event Bool
  | 0, _, _, _ => Run.stop
  | n + 1, locals, env, e => do
    let before ← Run.get State.store
    let v ← eval n locals env e
    leave env before
    pure v

def evals : Nat → LocalScope → Env → List Expr → Run State Event Unit
  | 0, _, _, _ => Run.stop
  | _ + 1, _, _, [] => pure ()
  | n + 1, locals, env, e :: es => do
    let _ ← eval n locals env e
    evals n (after T locals e) env es

end

attribute [grind =] eval evalLast evals

/-! ## Statements -/

/-- New variables. -/
def bindDecls : List Decl → Env → Run State Event Env
  | [], env => pure env
  | d :: ds, env => do bindDecls ds (← bindDecl T ω env d)

/-- A nested statement is left for the one after it. -/
def leaveFlow (env : Env) (before : Store) : Flow → Run State Event Flow
  | .normal _ => do
    leave env before
    pure (.normal env)
  | o => pure o

/-- The variables a statement declares in the scope around it. -/
def declaredBy : Stmt → List Decl
  | .varDecl decl _ => [decl]
  | .varDeclGroup decls _ => decls.filter fun d => d.name ≠ "" ∧ d.name ≠ "_"
  | .deferStmt body => declaredBy body
  | _ => []

/-- A condition, with the scope of the branch it selects. -/
def evalCondition (n : Nat) (locals : LocalScope) (env : Env) (condition : Expr) :
    Run State Event (Bool × LocalScope) := do
  let v ← eval T ω n locals env condition
  pure (v, branch (after T locals condition) condition v)

mutual

def exec : Nat → Nesting → LocalScope → Env → Stmt → Run State Event Flow
  | 0, _, _, _, _ => Run.stop
  | n + 1, k, locals, env, s => do
    passPoint locals env
    let before ← Run.get State.store
    match s with
    | .block stmts =>
      let outer ← Run.get State.defers
      Run.modify fun σ => { σ with defers := [] }
      let o ← execs n k locals env stmts
      let defers ← Run.get State.defers
      Run.modify fun σ => { σ with defers := outer }
      runDefers n defers
      leaveFlow env before o
    | .ifThen condition thenStmt =>
      let (v, inner) ← evalCondition T ω n locals env condition
      if v then return (← exec n k inner env thenStmt).within env else pure (.normal env)
    | .ifElse condition thenStmt elseStmt =>
      let (v, inner) ← evalCondition T ω n locals env condition
      return (← exec n k inner env (if v then thenStmt else elseStmt)).within env
    | .whileStmt condition body =>
      let (v, inner) ← evalCondition T ω n locals env condition
      if v then
        match ← exec n k.loop inner env body with
        | .normal _ | .continues =>
          leave env before
          exec n k locals env (.whileStmt condition body)
        | .breaks => leaveFlow env before (.normal env)
        | .returns => pure .returns
      else pure (.normal env)
    | .forIn index element iterable body =>
      let _ ← eval T ω n locals env iterable
      execFor n k (after T locals iterable) env index element body
    | .switchStmt operand arms =>
      let _ ← eval T ω n locals env operand
      matchOperand env operand
      let locals := after T locals operand
      let c ← choose ω
      -- a switch without a default arm may match none
      match arms[c.index]? with
      | some arm =>
        let before ← Run.get State.store
        let inner ← bindCapture T ω env arm.capture
        leaveFlow env before
          (← exec n k (locals.capture T arm.capture) inner arm.body)
      | none => if arms.any SwitchArm.isDefault then Run.stop else pure (.normal env)
    | .exprStmt expr =>
      let _ ← eval T ω n locals env expr
      pure (.normal env)
    | .varDecl decl init =>
      evals T ω n locals env init.toList
      return .normal (← bindDecl T ω env decl)
    | .varDeclGroup decls init =>
      let _ ← eval T ω n locals env init
      return .normal (← bindDecls T ω (declaredBy (.varDeclGroup decls init)) env)
    | .continueStmt => pure .continues
    | .breakStmt => pure .breaks
    | .returnStmt values | .returnOk values =>
      evals T ω n locals env values
      pure .returns
    | .returnErr value =>
      let _ ← eval T ω n locals env value
      pure .returns
    | .deferStmt body =>
      Run.modify fun σ =>
        { σ with defers := ⟨body, k.defer, locals, env, before⟩ :: σ.defers }
      -- the names of a deferred declaration are in scope after the `defer`
      return .normal (← bindDecls T ω (declaredBy body) env)
    | .whenStmt selected condition thenBlock elseBlock =>
      let o ← execs n k (after T locals condition) env (if selected then thenBlock else elseBlock)
      leaveFlow env before o
    | .asmStmt _ =>
      effect ω env
      pure (.normal env)

def execs : Nat → Nesting → LocalScope → Env → List Stmt → Run State Event Flow
  | 0, _, _, _, _ => Run.stop
  | _ + 1, _, _, env, [] => pure (.normal env)
  | n + 1, k, locals, env, s :: stmts => do
    match ← exec n k locals env s with
    | .normal env => execs n k (afterStmt T k locals s) env stmts
    | o => pure o

/-- The rest of a loop over a range, an array or a slice. -/
def execFor : Nat → Nesting → LocalScope → Env → Decl → Decl → Stmt → Run State Event Flow
  | 0, _, _, _, _, _, _ => Run.stop
  | n + 1, k, locals, env, index, element, body => do
    if (← choose ω).bit then
      let before ← Run.get State.store
      let inner ← bindCapture T ω env (some index)
      let inner ← bindCapture T ω inner (some element)
      match ← exec n k.loop ((locals.capture T (some index)).capture T (some element)) inner body
        with
      | .normal _ | .continues =>
        leave env before
        execFor n k locals env index element body
      | .breaks => leaveFlow env before (.normal env)
      | .returns => pure .returns
    else pure (.normal env)

/-- Deferred bodies, which find the locals around them as they were at the `defer`. -/
def runDefers : Nat → List Deferred → Run State Event Unit
  | 0, _ => Run.stop
  | _ + 1, [] => pure ()
  | n + 1, d :: ds => do
    leave d.env d.store
    let _ ← exec n d.nesting d.locals d.env d.body
    runDefers n ds

end

attribute [grind =] exec execs execFor runDefers

/-- A run of a function, cut off after `n` steps. -/
def runFunction (n : Nat) (params : List Decl) (body : Stmt) : Run State Event Flow := do
  let env ← bindDecls T ω params []
  exec T ω n {} (entryScope T params) env body

end

def State.init : State := ⟨fun _ => false, 0, 0, []⟩

/-- The events of a run. -/
def trace (T : Types) (ω : World) (n : Nat) (params : List Decl) (body : Stmt) : List Event :=
  (runFunction T ω n params body).events State.init

end Mirage.Typestate
