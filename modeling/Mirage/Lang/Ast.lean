import Mathlib.Logic.Basic

/-!
# Syntax trees

The expressions and statements of the language, as the parser builds them, with one
constructor for every node some phase looks into. The remaining expressions are
`leaf`s, which have no subexpressions, and `compound`s, of which every phase only walks
the subexpressions.

The side tables of the checker are keyed by the address of a node, which is the
`ExprKey` here; a declared variable carries a `DeclId` of its own, so that two
variables of one name are told apart. Source positions are left out.
-/

namespace Mirage.Ast

abbrev Name := String

/-- The address of an expression node. -/
abbrev ExprKey := Nat

/-- The identity of a declared variable. -/
abbrev DeclId := Nat

inductive UnaryOp
  | negate | logicalNot | bitwiseNot | addressOf | deref
  deriving DecidableEq, Repr

inductive BinaryOp
  | add | sub | mul | div | mod | bitwiseAnd | bitwiseOr | bitwiseXor | shiftLeft | shiftRight
  | equal | notEqual | less | greater | lessEqual | greaterEqual | logicalAnd | logicalOr | in
  deriving DecidableEq, Repr

/-- The expressions without subexpressions that no phase tells apart by their contents. -/
inductive LeafKind
  | float | nil | importBin | iota | rttiEnabled | default | undefined | empty | typeExpr | asm
  deriving DecidableEq, Repr

/-- The expressions of which only the subexpressions matter. A cast of an address to a slice has
    the length as its second operand; an `asm` expression that names variables or constants
    has their names as its operands. -/
inductive CompoundKind
  | incrDecr | typeInfoOf | len | stackAlloc | index | slice | taggedVariant | try | range | spread
  | castWithLength | asmExpr
  deriving DecidableEq, Repr

/-- `$option` and `$env`. -/
inductive OptionKind
  | option | env
  deriving DecidableEq, Repr

/-- A declared variable. The name of an omitted one is `_`. -/
structure Decl where
  id : DeclId
  name : Name
  deriving DecidableEq, Repr

mutual

inductive Expr
  | literalInteger (key : ExprKey) (value : BitVec 64)
  | literalString (key : ExprKey) (value : String)
  | literalChar (key : ExprKey) (value : BitVec 8)
  | literalBool (key : ExprKey) (value : Bool)
  | leaf (key : ExprKey) (kind : LeafKind)
  | ident (key : ExprKey) (name : Name)
  | dotIdent (key : ExprKey) (name : Name)
  | importExpr (key : ExprKey)
  | unary (key : ExprKey) (op : UnaryOp) (operand : Expr)
  | binary (key : ExprKey) (op : BinaryOp) (lhs rhs : Expr)
  | ternary (key : ExprKey) (condition thenExpr elseExpr : Expr)
  | whenExpr (key : ExprKey) (condition thenExpr elseExpr : Expr)
  | assign (key : ExprKey) (target value : Expr)
  | call (key : ExprKey) (callee : Expr) (args : List Expr)
  | sizeOf (key : ExprKey) (operand : Expr)
  | alignOf (key : ExprKey) (operand : Expr)
  | typeOf (key : ExprKey) (operand : Expr)
  /-- A `$option` or `$env`, with its default if it has one. -/
  | option (key : ExprKey) (kind : OptionKind) (defaultValue : List Expr)
  | cast (key : ExprKey) (value : Expr)
  | member (key : ExprKey) (object : Expr) (member : Name)
  | bitsetExpr (key : ExprKey) (members : List Name)
  | structExpr (key : ExprKey) (names : List Name) (values : List Expr)
  | arrayExpr (key : ExprKey) (values : List Expr)
  | matchExpr (key : ExprKey) (operand : Expr) (arms : List MatchArm)
  | compound (key : ExprKey) (kind : CompoundKind) (operands : List Expr)

/-- An arm of a `match`, by its pattern. -/
inductive MatchArm
  | variant (name : Name) (capture : Option Decl) (value : Expr)
  | literal (pattern value : Expr)
  | default (value : Expr)

end

mutual

inductive Stmt
  | block (stmts : List Stmt)
  | ifThen (condition : Expr) (thenStmt : Stmt)
  | ifElse (condition : Expr) (thenStmt elseStmt : Stmt)
  | whileStmt (condition : Expr) (body : Stmt)
  | forIn (index element : Decl) (iterable : Expr) (body : Stmt)
  | switchStmt (operand : Expr) (arms : List SwitchArm)
  | exprStmt (expr : Expr)
  | varDecl (decl : Decl) (init : Option Expr)
  | varDeclGroup (decls : List Decl) (init : Expr)
  | continueStmt
  | breakStmt
  | returnStmt (values : List Expr)
  | returnErr (value : Expr)
  | returnOk (values : List Expr)
  | deferStmt (body : Stmt)
  /-- A `when`, with the branch the checker selected. An `else when` is an `else` whose
      only statement is the next `when`. -/
  | whenStmt (selected : Bool) (condition : Expr) (thenBlock elseBlock : List Stmt)
  | asmStmt (names : List Name)

/-- An arm of a `switch`, by its pattern. -/
inductive SwitchArm
  | variant (name : Name) (capture : Option Decl) (body : Stmt)
  | literal (pattern : Expr) (body : Stmt)
  | default (body : Stmt)

end

/-- The address of a node. -/
def Expr.key : Expr → ExprKey
  | .literalInteger k _ | .literalString k _ | .literalChar k _ | .literalBool k _ | .leaf k _
  | .ident k _ | .dotIdent k _ | .importExpr k | .unary k _ _ | .binary k _ _ _
  | .ternary k _ _ _ | .whenExpr k _ _ _ | .assign k _ _ | .call k _ _ | .sizeOf k _
  | .alignOf k _ | .typeOf k _ | .option k _ _ | .cast k _ | .member k _ _ | .bitsetExpr k _
  | .structExpr k _ _ | .arrayExpr k _ | .matchExpr k _ _ | .compound k _ _ => k

namespace MatchArm

/-- The value of an arm. -/
def value : MatchArm → Expr
  | .variant _ _ v | .literal _ v | .default v => v

/-- The variable an arm binds. -/
def capture : MatchArm → Option Decl
  | .variant _ c _ => c
  | _ => none

end MatchArm

namespace SwitchArm

def body : SwitchArm → Stmt
  | .variant _ _ s | .literal _ s | .default s => s

def capture : SwitchArm → Option Decl
  | .variant _ c _ => c
  | _ => none

def isDefault : SwitchArm → Bool
  | .default _ => true
  | _ => false

end SwitchArm

end Mirage.Ast
