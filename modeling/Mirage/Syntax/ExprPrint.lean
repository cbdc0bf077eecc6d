import Mirage.Syntax.Expr

/-!
# Printing expressions

An expression is printed with parentheses where it would be read differently without. Its *level*
is that of the routine that builds it, from 0 for an assignment to 16 for what stands for itself.
An operand stands without parentheses if its level is at least that of the routine that reads it:

* the left operand of an operator is read at the level of the operator, the right one at the next;
* what is between brackets, and what an assignment, a `?:` or a `when` ends with, is read at
  level 0;
* before `?`, `when` and an assignment there is no assignment, `?:` or `when` without parentheses,
  as it would take in what follows.
-/

namespace Mirage.Syntax

open Ast (UnaryOp BinaryOp)

/-- What a token is, without its place. -/
abbrev Lexeme := TokenKind × List Char

def Token.toLexeme (t : Token) : Lexeme := (t.kind, t.lexeme)

def binaryLevel : BinaryOp → Nat
  | .logicalOr => 3
  | .logicalAnd => 4
  | .in => 5
  | .bitwiseOr => 6
  | .bitwiseXor => 7
  | .bitwiseAnd => 8
  | .equal | .notEqual => 9
  | .less | .greater | .lessEqual | .greaterEqual => 10
  | .shiftLeft | .shiftRight => 11
  | .add | .sub => 12
  | .mul | .div | .mod => 13

def binaryLexeme : BinaryOp → Lexeme
  | .logicalOr => (.pipePipe, ['|', '|'])
  | .logicalAnd => (.ampAmp, ['&', '&'])
  | .in => (.kwIn, ['i', 'n'])
  | .bitwiseOr => (.pipe, ['|'])
  | .bitwiseXor => (.caret, ['^'])
  | .bitwiseAnd => (.ampersand, ['&'])
  | .equal => (.equalEqual, ['=', '='])
  | .notEqual => (.bangEqual, ['!', '='])
  | .less => (.less, ['<'])
  | .greater => (.greater, ['>'])
  | .lessEqual => (.lessEqual, ['<', '='])
  | .greaterEqual => (.greaterEqual, ['>', '='])
  | .shiftLeft => (.shiftLeft, ['<', '<'])
  | .shiftRight => (.shiftRight, ['>', '>'])
  | .add => (.plus, ['+'])
  | .sub => (.minus, ['-'])
  | .mul => (.star, ['*'])
  | .div => (.slash, ['/'])
  | .mod => (.percent, ['%'])

def assignLexeme : AssignOp → Lexeme
  | .assign => (.equal, ['='])
  | .addAssign => (.plusEqual, ['+', '='])
  | .subAssign => (.minusEqual, ['-', '='])
  | .mulAssign => (.starEqual, ['*', '='])
  | .divAssign => (.slashEqual, ['/', '='])
  | .andAssign => (.ampEqual, ['&', '='])
  | .orAssign => (.pipeEqual, ['|', '='])
  | .xorAssign => (.caretEqual, ['^', '='])
  | .shlAssign => (.shiftLeftEqual, ['<', '<', '='])
  | .shrAssign => (.shiftRightEqual, ['>', '>', '='])
  | .toggleAssign => (.tildeEqual, ['~', '='])

/-- A prefix operator. The dereference is no prefix. -/
def prefixLexeme : UnaryOp → Lexeme
  | .negate => (.minus, ['-'])
  | .logicalNot => (.bang, ['!'])
  | .bitwiseNot => (.tilde, ['~'])
  | .addressOf => (.ampersand, ['&'])
  | .deref => (.star, ['*'])

def incrDecrLexeme (isIncrement : Bool) : Lexeme :=
  if isIncrement then (.plusPlus, ['+', '+']) else (.minusMinus, ['-', '-'])

/-- The digits of a number. -/
def decimal (n : Nat) : List Char :=
  if n < 10 then [Char.ofNat ('0'.toNat + n)]
  else decimal (n / 10) ++ [Char.ofNat ('0'.toNat + n % 10)]
termination_by n
decreasing_by omega

def Expr.level : Expr → Nat
  | .assign .. => 0
  | .whenExpr .. => 1
  | .ternary .. => 2
  | .binary op .. => binaryLevel op
  | .unary .deref _ => 15
  | .unary .. | .tryExpr _ => 14
  | .incrDecr _ _ isPrefix => if isPrefix then 14 else 15
  | .call .. | .indexOrInstantiate .. | .slice .. | .member .. => 15
  | .literalInteger _ | .literalBool _ | .ident _ | .other _ | .spread _ => 16

def lParen : Lexeme := (.lParen, ['('])

def rParen : Lexeme := (.rParen, [')'])

/-- Parentheses where they are needed. -/
def bracketed (needed : Prop) [Decidable needed] (ls : List Lexeme) : List Lexeme :=
  if needed then lParen :: ls ++ [rParen] else ls

/-- The level that both sides of a binary operator are read at. -/
def lhsLevel (op : BinaryOp) : Nat := if op = .in then 6 else binaryLevel op

mutual

def Expr.body : Expr → List Lexeme
  | .literalInteger value => [(.intLiteral, decimal value.toNat)]
  | .literalBool true => [(.kwTrue, ['t', 'r', 'u', 'e'])]
  | .literalBool false => [(.kwFalse, ['f', 'a', 'l', 's', 'e'])]
  | .ident name => [(.identifier, name)]
  | .unary .deref operand =>
    bracketed (operand.level < 15) operand.body ++ [(.dot, ['.']), (.star, ['*'])]
  | .unary op operand => prefixLexeme op :: bracketed (operand.level < 14) operand.body
  | .incrDecr operand isIncrement true =>
    incrDecrLexeme isIncrement :: bracketed (operand.level < 14) operand.body
  | .incrDecr operand isIncrement false =>
    bracketed (operand.level < 15) operand.body ++ [incrDecrLexeme isIncrement]
  | .tryExpr operand => (.kwTry, ['t', 'r', 'y']) :: bracketed (operand.level < 15) operand.body
  | .binary op lhs rhs =>
    bracketed (lhs.level < lhsLevel op) lhs.body ++
      binaryLexeme op :: bracketed (rhs.level < binaryLevel op + 1) rhs.body
  | .ternary condition thenExpr elseExpr =>
    bracketed (condition.level < 3) condition.body ++
      (.question, ['?']) :: thenExpr.body ++ (.colon, [':']) :: elseExpr.body
  | .whenExpr condition thenExpr elseExpr =>
    bracketed (thenExpr.level < 3) thenExpr.body ++ (.kwWhen, ['w', 'h', 'e', 'n']) ::
      bracketed (condition.level < 2) condition.body ++
        (.kwElse, ['e', 'l', 's', 'e']) :: elseExpr.body
  | .assign op target value =>
    bracketed (target.level < 3) target.body ++ assignLexeme op :: value.body
  | .call callee args =>
    bracketed (callee.level < 15) callee.body ++ lParen :: bodies args ++ [rParen]
  | .indexOrInstantiate operand args =>
    bracketed (operand.level < 15) operand.body ++
      (.lBracket, ['[']) :: bodies args ++ [(.rBracket, [']'])]
  | .member object name =>
    bracketed (object.level < 15) object.body ++ [(.dot, ['.']), (.identifier, name)]
  | .slice .. | .spread _ | .other _ => []

/-- Expressions between commas. -/
def bodies : List Expr → List Lexeme
  | [] => []
  | [e] => e.body
  | e :: es => e.body ++ (.comma, [',']) :: bodies es

end

/-- The expression where a routine of the level reads it. -/
def Expr.printAt (level : Nat) (e : Expr) : List Lexeme := bracketed (e.level < level) e.body

/-- The text of an expression, with a space before each token. -/
def Expr.text (e : Expr) : List Char := e.body.flatMap fun l => ' ' :: l.2

/-- A name that is no word of the language. -/
def IsIdentifier (name : List Char) : Prop :=
  (∃ ch rest, name = ch :: rest ∧ (ch.isAlpha || ch == '_') = true ∧
    ∀ ch' ∈ rest, (ch'.isAlphanum || ch' == '_') = true) ∧
  keywords.lookup (String.ofList name) = none

/-- The expressions of names, numbers and truth values with operators of every kind, calls, members
    and indices. -/
inductive Expr.Plain : Expr → Prop
  | literalInteger (value : BitVec 64) : Plain (.literalInteger value)
  | literalBool (value : Bool) : Plain (.literalBool value)
  | ident {name : List Char} (h : IsIdentifier name) : Plain (.ident name)
  | unary (op : UnaryOp) {operand : Expr} (h : Plain operand) : Plain (.unary op operand)
  | incrDecr (isIncrement isPrefix : Bool) {operand : Expr} (h : Plain operand) :
    Plain (.incrDecr operand isIncrement isPrefix)
  | tryExpr {operand : Expr} (h : Plain operand) : Plain (.tryExpr operand)
  | binary (op : BinaryOp) {lhs rhs : Expr} (hlhs : Plain lhs) (hrhs : Plain rhs) :
    Plain (.binary op lhs rhs)
  | ternary {condition thenExpr elseExpr : Expr} (hcondition : Plain condition)
    (hthen : Plain thenExpr) (helse : Plain elseExpr) :
    Plain (.ternary condition thenExpr elseExpr)
  | whenExpr {condition thenExpr elseExpr : Expr} (hcondition : Plain condition)
    (hthen : Plain thenExpr) (helse : Plain elseExpr) :
    Plain (.whenExpr condition thenExpr elseExpr)
  | assign (op : AssignOp) {target value : Expr} (htarget : Plain target) (hvalue : Plain value) :
    Plain (.assign op target value)
  | call {callee : Expr} {args : List Expr} (hcallee : Plain callee)
    (hargs : ∀ arg ∈ args, Plain arg) : Plain (.call callee args)
  | index {operand : Expr} {args : List Expr} (hoperand : Plain operand) (hne : args ≠ [])
    (hargs : ∀ arg ∈ args, Plain arg) : Plain (.indexOrInstantiate operand args)
  | member {object : Expr} {name : List Char} (hobject : Plain object) (hname : IsIdentifier name) :
    Plain (.member object name)

end Mirage.Syntax
