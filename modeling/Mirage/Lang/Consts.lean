import Mirage.Lang.Ast
import Mirage.Lib.Calls

/-!
# Constants

Three walks over an expression decide what a constant is and what it is worth:

* `isConstantExpr` classifies the expressions that are constant;
* `evaluateConstValue` folds an expression where a value is wanted (a `when` condition, a
  match pattern, a default of an option), as a signed number or a string;
* `evalIntegerConstExpr` folds one where a type is made (an array length, the value of an
  enum, a generic argument), as an unsigned number.

A fourth, `ensureConditionModulesDeclared`, goes through the condition of a `when` before
it is folded and declares the modules it mentions.

Each follows a name into the initializer it stands for and a macro call into the template,
so none of them is a recursion over the expression, and each is given by its step
(`Mirage.Calls`). The arguments of a step are those of the function in the source,
together with a counter `nest` of the templates around the call, which the functions do not
have.

An evaluator returns nothing where an expression has no value; here it says why
(`Failure`): an operation without a result, or a part that is not constant.
-/

namespace Mirage.Consts

open Ast Calls

/-- The cap on nested templates. -/
def maxMacroEvalDepth : Nat := 64

abbrev ModulePath := String

/-! ## Programs -/

/-- A folded constant. -/
inductive Value
  | int (v : BitVec 64)
  | str (s : String)
  deriving DecidableEq, Repr

/-- What the checker records as the type of an expression, as far as constants depend on
    it. -/
inductive Ty
  | int (width : Nat) (signed : Bool)
  | bool
  | enum (index : Nat)
  | bitset (index : Nat)
  | struct (index : Nat)
  | array | slice | pointer | anyptr | union | any | other
  deriving DecidableEq, Repr

structure GlobalSymbol where
  isMut : Bool
  isResolved : Bool
  init : Option Expr

structure MacroSymbol where
  params : List Name
  exprTemplate : Expr
  isResolved : Bool

inductive Symbol
  | globalSymbol (g : GlobalSymbol)
  | macroSymbol (m : MacroSymbol)
  | importSymbol (path : ModulePath)
  | other

structure Module where
  symbols : List (Name × Symbol)
  exprTypes : List (ExprKey × Ty)
  /-- The expressions with an implicit coercion that stores at run time. -/
  coercions : List ExprKey
  optionValues : List (ExprKey × Value)
  inlineImportPaths : List (ExprKey × ModulePath)

structure StructField where
  name : Name
  type : Ty
  initExpr : Option Expr

structure Program where
  modules : List (ModulePath × Module)
  /-- The fields of each enum with their values. -/
  enums : List (List (Name × BitVec 64))
  /-- The enum of each bitset. -/
  bitsets : List Nat
  structs : List (List StructField)
  rttiEnabled : Bool
  /-- The value parameters of the generic instance that is being checked. -/
  genericEnv : List (Name × Value)
  /-- The size and the alignment of the operand of `size_of` and `align_of`. -/
  sizeOf : ModulePath → Expr → BitVec 64
  alignOf : ModulePath → Expr → BitVec 64

namespace Program

variable (P : Program)

def symbol (m : ModulePath) (x : Name) : Option Symbol :=
  (P.modules.lookup m).bind (·.symbols.lookup x)

def exprType (m : ModulePath) (k : ExprKey) : Option Ty :=
  (P.modules.lookup m).bind (·.exprTypes.lookup k)

def optionValue (m : ModulePath) (k : ExprKey) : Option Value :=
  (P.modules.lookup m).bind (·.optionValues.lookup k)

def isCoerced (m : ModulePath) (k : ExprKey) : Bool :=
  (P.modules.lookup m).any (·.coercions.contains k)

/-- The initializer of a global. -/
def globalInit (m : ModulePath) (x : Name) : Option Expr :=
  match P.symbol m x with
  | some (.globalSymbol g) => g.init
  | _ => none

/-- The initializer of a global that does not change. -/
def constInit (m : ModulePath) (x : Name) : Option Expr :=
  match P.symbol m x with
  | some (.globalSymbol g) => if g.isMut then none else g.init
  | _ => none

/-- A global that does not change and is resolved. -/
def isConstGlobal (m : ModulePath) (x : Name) : Bool :=
  match P.symbol m x with
  | some (.globalSymbol g) => !g.isMut && g.isResolved
  | _ => false

/-- The module the object of a member expression names. -/
def resolveMemberObjectImportPath (m : ModulePath) : Expr → Option ModulePath
  | .importExpr k => (P.modules.lookup m).bind (·.inlineImportPaths.lookup k)
  | .ident _ x =>
    match P.symbol m x with
    | some (.importSymbol path) => some path
    | _ => none
  | _ => none

/-- The macro a callee names. -/
def macroOf (m : ModulePath) : Expr → Option MacroSymbol
  | .ident _ f =>
    match P.symbol m f with
    | some (.macroSymbol mac) => if mac.isResolved then some mac else none
    | _ => none
  | _ => none

def enumField (index : Nat) (x : Name) : Option (BitVec 64) :=
  P.enums[index]?.bind (·.lookup x)

/-- The bit of a member of a bitset. -/
def bitsetMask (index : Nat) (x : Name) : Option (BitVec 64) := do
  let e ← P.bitsets[index]?
  let v ← P.enumField e x
  some (1#64 <<< (v + 1).toNat)

def structFields (ty : Ty) : List StructField :=
  match ty with
  | .struct i => P.structs[i]?.getD []
  | _ => []

end Program

/-! ## Operators -/

/-- Why an expression has no value. -/
inductive Failure
  /-- A division by zero, a division that overflows, or a shift out of range. -/
  | arithmetic
  | notConstant
  deriving DecidableEq, Repr

inductive ConstFoldSign
  | signed | unsigned
  deriving DecidableEq, Repr

def foldUnaryOp (op : UnaryOp) (operand : BitVec 64) : Except Failure (BitVec 64) :=
  match op with
  | .negate => .ok (0 - operand)
  | .bitwiseNot => .ok (~~~operand)
  | .logicalNot => .ok (if operand = 0 then 1 else 0)
  | .addressOf | .deref => .error .notConstant

/-- A truth value. -/
def boolean (b : Bool) : Except Failure (BitVec 64) := .ok (if b then 1 else 0)

def foldBinaryOp (op : BinaryOp) (lhs rhs : BitVec 64) (sign : ConstFoldSign) :
    Except Failure (BitVec 64) :=
  let isSigned := sign = .signed
  match op with
  | .add => .ok (lhs + rhs)
  | .sub => .ok (lhs - rhs)
  | .mul => .ok (lhs * rhs)
  | .bitwiseAnd => .ok (lhs &&& rhs)
  | .bitwiseOr => .ok (lhs ||| rhs)
  | .bitwiseXor => .ok (lhs ^^^ rhs)
  | .equal => boolean (lhs == rhs)
  | .notEqual => boolean (lhs != rhs)
  | .logicalAnd => boolean (lhs != 0 && rhs != 0)
  | .logicalOr => boolean (lhs != 0 || rhs != 0)
  | .div =>
    if rhs = 0 then .error .arithmetic
    else if isSigned then
      if lhs = BitVec.intMin 64 ∧ rhs = -1 then .error .arithmetic else .ok (lhs.sdiv rhs)
    else .ok (lhs / rhs)
  | .mod =>
    if rhs = 0 then .error .arithmetic
    else if isSigned then
      if lhs = BitVec.intMin 64 ∧ rhs = -1 then .error .arithmetic else .ok (lhs.srem rhs)
    else .ok (lhs % rhs)
  | .shiftLeft =>
    if 64 ≤ rhs.toNat ∨ (isSigned ∧ rhs.toInt < 0) then .error .arithmetic
    else .ok (lhs <<< rhs.toNat)
  | .shiftRight =>
    if 64 ≤ rhs.toNat ∨ (isSigned ∧ rhs.toInt < 0) then .error .arithmetic
    else .ok (if isSigned then lhs.sshiftRight rhs.toNat else lhs >>> rhs.toNat)
  | .less => boolean (if isSigned then lhs.slt rhs else lhs.ult rhs)
  | .greater => boolean (if isSigned then rhs.slt lhs else rhs.ult lhs)
  | .lessEqual => boolean (if isSigned then lhs.sle rhs else lhs.ule rhs)
  | .greaterEqual => boolean (if isSigned then rhs.sle lhs else rhs.ule lhs)
  | .in => .error .notConstant

/-! ## The evaluator of values -/

/-- The value of a constant, or why there is none. -/
abbrev Outcome := Except Failure Value

def notConstant {α : Type} : Except Failure α := .error .notConstant

/-- A number; a string is not one. -/
def asInt : Outcome → Except Failure (BitVec 64)
  | .ok (.int v) => .ok v
  | .ok (.str _) => notConstant
  | .error f => .error f

/-- A constant from a table. -/
def ofOption {α : Type} : Option α → Except Failure α
  | some v => .ok v
  | none => notConstant

structure EvalCall where
  module : ModulePath
  macroArgs : List (Name × Value)
  depth : Nat
  nest : Nat
  expr : Expr

/-- The arguments of a macro call, up to the first that has no value. -/
def evaluateArgs (c : EvalCall) : List Expr → Calls EvalCall Outcome (Except Failure (List Value))
  | [] => pure (.ok [])
  | e :: es => do
    match ← call { c with depth := c.depth + 1, expr := e } with
    | .ok v =>
      let vs ← evaluateArgs c es
      pure (vs.map (v :: ·))
    | .error f => pure (.error f)

/-- A `.Variant`, by the type recorded for a node. -/
def dotIdentValue (P : Program) (m : ModulePath) (k : ExprKey) (x : Name) : Outcome :=
  match P.exprType m k with
  | some (.bitset i) => (ofOption (P.bitsetMask i x)).map .int
  | some (.enum i) => (ofOption (P.enumField i x)).map .int
  | _ => notConstant

/-- The bits of a bitset literal. -/
def bitsetValue (P : Program) (m : ModulePath) (k : ExprKey) (members : List Name) : Outcome :=
  match P.exprType m k with
  | some (.bitset i) =>
    (ofOption (members.mapM (P.bitsetMask i))).map fun masks => .int (masks.foldl (· ||| ·) 0)
  | _ => notConstant

/-- One side of a comparison: a `.Variant` that has no value of its own takes its enum from
    the other side. -/
def resolveSide (P : Program) (c : EvalCall) (side other : Expr) :
    Calls EvalCall Outcome (Except Failure (BitVec 64)) := do
  match ← call { c with depth := 0, expr := side } with
  | .ok v => pure (asInt (.ok v))
  | .error f =>
    match side with
    | .dotIdent _ x =>
      match P.exprType c.module other.key with
      | some (.enum i) => pure (ofOption (P.enumField i x))
      | _ => pure notConstant
    | _ => pure (.error f)

/-- A step of the evaluator. Below an operator, a cast or a condition the depth starts
    again. -/
def evaluateConstValueImpl (P : Program) (c : EvalCall) : Calls EvalCall Outcome Outcome :=
  let sub (e : Expr) : Calls EvalCall Outcome Outcome := call { c with depth := 0, expr := e }
  match c.expr with
  | .literalInteger _ v => pure (.ok (.int v))
  | .literalBool _ b => pure (.ok (.int (if b then 1 else 0)))
  | .literalChar _ v => pure (.ok (.int (v.setWidth 64)))
  | .literalString _ s => pure (.ok (.str s))
  | .ident _ x =>
    match c.macroArgs.lookup x with
    | some v => pure (.ok v)
    | none =>
      match P.genericEnv.lookup x with
      | some v => pure (.ok v)
      | none =>
        match P.constInit c.module x with
        | some init => call { c with macroArgs := [], depth := 0, expr := init }
        | none => pure notConstant
  | .member _ object x =>
    match P.resolveMemberObjectImportPath c.module object with
    | some m =>
      match P.constInit m x with
      | some init => call ⟨m, [], 0, c.nest, init⟩
      | none => pure notConstant
    | none => pure notConstant
  | .dotIdent k x => pure (dotIdentValue P c.module k x)
  | .bitsetExpr k members => pure (bitsetValue P c.module k members)
  | .unary _ op operand =>
    if op = .addressOf ∨ op = .deref then pure notConstant
    else do
      let v ← sub operand
      pure (do (← foldUnaryOp op (← asInt v)) |> Value.int |> .ok)
  | .binary _ op lhs rhs =>
    if op = .equal ∨ op = .notEqual then do
      let l ← resolveSide P c lhs rhs
      let r ← resolveSide P c rhs lhs
      pure (do (← foldBinaryOp op (← l) (← r) .signed) |> Value.int |> .ok)
    else do
      let l ← sub lhs
      let r ← sub rhs
      pure (do (← foldBinaryOp op (← asInt l) (← asInt r) .signed) |> Value.int |> .ok)
  | .cast _ value => sub value
  | .sizeOf _ operand => pure (.ok (.int (P.sizeOf c.module operand)))
  | .alignOf _ operand => pure (.ok (.int (P.alignOf c.module operand)))
  | .option k _ _ => pure (ofOption (P.optionValue c.module k))
  | .leaf _ .rttiEnabled => pure (.ok (.int (if P.rttiEnabled then 1 else 0)))
  | .ternary _ condition thenExpr elseExpr | .whenExpr _ condition thenExpr elseExpr => do
    match asInt (← sub condition) with
    | .ok v => sub (if v ≠ 0 then thenExpr else elseExpr)
    | .error f => pure (.error f)
  | .call _ callee args =>
    match P.macroOf c.module callee with
    | some mac =>
      if args.length = mac.params.length ∧ c.depth < maxMacroEvalDepth then do
        match ← evaluateArgs c args with
        | .ok vs =>
          call ⟨c.module, mac.params.zip vs, c.depth + 1, c.nest + 1, mac.exprTemplate⟩
        | .error f => pure (.error f)
      else pure notConstant
    | none => pure notConstant
  | _ => pure notConstant

/-- The evaluator gives the outcome for an expression of a module. -/
def EvaluatesTo (P : Program) (m : ModulePath) (e : Expr) (r : Outcome) : Prop :=
  Returns (evaluateConstValueImpl P) ⟨m, [], 0, 0, e⟩ r

/-! ## The evaluator of types -/

abbrev IntOutcome := Except Failure (BitVec 64)

structure IntCall where
  module : ModulePath
  macroArgs : List (Name × BitVec 64)
  iotaValue : BitVec 64
  depth : Nat
  nest : Nat
  expr : Expr

def evalIntegerArgs (c : IntCall) :
    List Expr → Calls IntCall IntOutcome (Except Failure (List (BitVec 64)))
  | [] => pure (.ok [])
  | e :: es => do
    match ← call { c with iotaValue := 0, depth := c.depth + 1, expr := e } with
    | .ok v =>
      let vs ← evalIntegerArgs c es
      pure (vs.map (v :: ·))
    | .error f => pure (.error f)

def evalIntegerConstExpr (P : Program) (c : IntCall) : Calls IntCall IntOutcome IntOutcome :=
  let sub (e : Expr) : Calls IntCall IntOutcome IntOutcome :=
    call { c with iotaValue := 0, depth := 0, expr := e }
  match c.expr with
  | .leaf _ .iota => pure (.ok c.iotaValue)
  | .literalInteger _ v => pure (.ok v)
  | .literalBool _ b => pure (.ok (if b then 1 else 0))
  | .ident _ x =>
    match c.macroArgs.lookup x with
    | some v => pure (.ok v)
    | none =>
      match P.genericEnv.lookup x with
      | some v => pure (asInt (.ok v))
      | none =>
        match P.constInit c.module x with
        | some init => call { c with macroArgs := [], iotaValue := 0, depth := 0, expr := init }
        | none => pure notConstant
  | .sizeOf _ operand => pure (.ok (P.sizeOf c.module operand))
  | .alignOf _ operand => pure (.ok (P.alignOf c.module operand))
  | .cast _ value => sub value
  | .unary _ op operand => do
    let v ← sub operand
    pure (do foldUnaryOp op (← v))
  | .binary _ op lhs rhs => do
    let l ← sub lhs
    let r ← sub rhs
    pure (do foldBinaryOp op (← l) (← r) .unsigned)
  | .ternary _ condition thenExpr elseExpr => do
    match ← sub condition with
    | .ok v => sub (if v ≠ 0 then thenExpr else elseExpr)
    | .error f => pure (.error f)
  | .call _ callee args =>
    match P.macroOf c.module callee with
    | some mac =>
      if args.length = mac.params.length ∧ c.depth < maxMacroEvalDepth then do
        match ← evalIntegerArgs c args with
        | .ok vs =>
          call ⟨c.module, mac.params.zip vs, 0, c.depth + 1, c.nest + 1, mac.exprTemplate⟩
        | .error f => pure (.error f)
      else pure notConstant
    | none => pure notConstant
  | _ => pure notConstant

/-! ## The classifier -/

structure ConstCall where
  module : ModulePath
  treatedAsConst : List Name
  depth : Nat
  nest : Nat
  expr : Expr

/-- All expressions are constant; an `undefined` is passed over. -/
def allConstant (c : ConstCall) : List Expr → Calls ConstCall Bool Bool
  | [] => pure true
  | .leaf _ .undefined :: es => allConstant c es
  | e :: es => do
    if ← call { c with expr := e } then allConstant c es else pure false

/-- The coercions of a field value that store at run time. -/
def needsRuntimeCoercion : Ty → Ty → Bool
  | .array, .slice | .slice, .array | .array, .pointer | .array, .anyptr
  | .slice, .pointer | .slice, .anyptr => true
  | _, _ => false

/-- The values of a struct literal are constant and need no coercion. -/
def fieldsConstant (P : Program) (c : ConstCall) (ty : Ty) :
    List (Name × Expr) → Calls ConstCall Bool Bool
  | [] => pure true
  | (_, .leaf _ .undefined) :: fields => fieldsConstant P c ty fields
  | (x, e) :: fields => do
    if ← call { c with expr := e } then
      let field := (P.structFields ty).find? (·.name = x)
      match field, P.exprType c.module e.key with
      | some f, some from' =>
        if needsRuntimeCoercion from' f.type then pure false else fieldsConstant P c ty fields
      | _, _ => fieldsConstant P c ty fields
    else pure false

/-- The defaults of the fields that are not given. -/
def defaultsOf (P : Program) (ty : Ty) (provided : List Name) : List Expr :=
  (P.structFields ty).filterMap fun f => if provided.contains f.name then none else f.initExpr

/-- Every expression is constant. -/
def eachConstant (c : ConstCall) : List Expr → Calls ConstCall Bool Bool
  | [] => pure true
  | e :: es => do
    if ← call { c with expr := e } then eachConstant c es else pure false

def isConstantExprImpl (P : Program) (c : ConstCall) : Calls ConstCall Bool Bool :=
  let sub (e : Expr) : Calls ConstCall Bool Bool := call { c with expr := e }
  if P.isCoerced c.module c.expr.key then pure false
  else match c.expr with
  | .literalInteger .. | .literalString .. | .literalChar .. | .literalBool .. => pure true
  | .leaf _ kind =>
    match kind with
    | .float | .nil | .importBin | .iota | .rttiEnabled | .default | .empty => pure true
    | .undefined | .typeExpr | .asm => pure false
  | .ident _ x =>
    if c.treatedAsConst.contains x then pure true else pure (P.isConstGlobal c.module x)
  | .member _ object x =>
    match P.resolveMemberObjectImportPath c.module object with
    | some m => pure (P.isConstGlobal m x)
    | none => pure false
  | .sizeOf .. | .alignOf .. | .dotIdent .. | .bitsetExpr .. | .option .. => pure true
  | .typeOf _ operand => pure (P.exprType c.module operand.key ≠ some .any)
  | .arrayExpr _ values => allConstant c values
  | .structExpr k names values =>
    match P.exprType c.module k with
    | none | some .union => pure false
    | some ty => do
      if ← fieldsConstant P c ty (names.zip values) then eachConstant c (defaultsOf P ty names)
      else pure false
  | .unary _ op operand => if op = .addressOf ∨ op = .deref then pure false else sub operand
  | .binary _ _ lhs rhs => do if ← sub lhs then sub rhs else pure false
  | .ternary _ condition thenExpr elseExpr | .whenExpr _ condition thenExpr elseExpr => do
    if ← sub condition then
      if ← sub thenExpr then sub elseExpr else pure false
    else pure false
  | .cast _ value => sub value
  | .call _ callee args =>
    match P.macroOf c.module callee with
    | some mac => do
      if ← eachConstant c args then
        if c.depth < maxMacroEvalDepth then
          call ⟨c.module, mac.params ++ c.treatedAsConst, c.depth + 1, c.nest + 1, mac.exprTemplate⟩
        else pure false
      else pure false
    | none => pure false
  | _ => pure false

/-- The classifier, with the value parameters of the generic instance that is checked. -/
def Classifies (P : Program) (m : ModulePath) (extra : List Name) (e : Expr) (r : Bool) : Prop :=
  Returns (isConstantExprImpl P) ⟨m, extra ++ P.genericEnv.map (·.1), 0, 0, e⟩ r

/-! ## The modules of a condition -/

structure DeclCall where
  module : ModulePath
  expr : Expr

/-- The parts of an expression. -/
def parts : Expr → List Expr
  | .unary _ _ e | .sizeOf _ e | .alignOf _ e | .typeOf _ e | .cast _ e | .member _ e _ => [e]
  | .binary _ _ a b | .assign _ a b => [a, b]
  | .ternary _ a b c | .whenExpr _ a b c => [a, b, c]
  | .call _ callee args => callee :: args
  | .option _ _ es | .structExpr _ _ es | .arrayExpr _ es | .compound _ _ es => es
  | .matchExpr _ operand arms => operand :: arms.flatMap fun
    | .variant _ _ value | .default value => [value]
    | .literal pattern value => [pattern, value]
  | _ => []

def declareAll (m : ModulePath) : List Expr → Calls DeclCall (List ModulePath) (List ModulePath)
  | [] => pure []
  | e :: es => do
    let first ← call ⟨m, e⟩
    let rest ← declareAll m es
    pure (first ++ rest)

/-- The modules to declare, in order. -/
def ensureConditionModulesDeclared (P : Program) (c : DeclCall) :
    Calls DeclCall (List ModulePath) (List ModulePath) :=
  match c.expr with
  | .member _ object _ => do
    let inner ← call ⟨c.module, object⟩
    pure (inner ++ (P.resolveMemberObjectImportPath c.module object).toList)
  | .ident _ x =>
    match P.globalInit c.module x with
    | some init => call ⟨c.module, init⟩
    | none => pure []
  | e => declareAll c.module (parts e)

end Mirage.Consts
