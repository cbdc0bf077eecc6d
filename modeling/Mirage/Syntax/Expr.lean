import Mirage.Lang.Ast
import Mirage.Syntax.Token

/-!
# Expressions

The parser of expressions has one routine for each precedence (`parse_assign_expr` to
`parse_primary`, `ast.cpp`). A routine parses its first operand with the next one, and then looks
whether an operator of its precedence follows. What a routine calls that is further out,
`parse_expr` within brackets and behind `?` or `else`, `parse_unary` and `parse_assign_expr` behind
their own operators, it takes from `Calls`, so that the routines are defined one after the other.
`calls` ties the knot, with fuel that bounds how deep calls are nested.

Every routine works on the rest of the tokens, of which the last one is the end of the file. The
expressions that are not built here, literals other than integers and truth values and those that
start with a word of their own, are parsed by a given `Others`, as are types.
-/

namespace Mirage.Syntax

open Ast (UnaryOp BinaryOp)

inductive AssignOp
  | assign | addAssign | subAssign | mulAssign | divAssign | andAssign | orAssign | xorAssign
  | shlAssign | shrAssign | toggleAssign
  deriving DecidableEq, Repr

/-- An expression as the parser builds it, without locations. -/
inductive Expr
  | literalInteger (value : BitVec 64)
  | literalBool (value : Bool)
  | ident (name : List Char)
  | unary (op : UnaryOp) (operand : Expr)
  | incrDecr (operand : Expr) (isIncrement isPrefix : Bool)
  | tryExpr (operand : Expr)
  | binary (op : BinaryOp) (lhs rhs : Expr)
  | ternary (condition thenExpr elseExpr : Expr)
  | whenExpr (condition thenExpr elseExpr : Expr)
  | assign (op : AssignOp) (target value : Expr)
  | call (callee : Expr) (args : List Expr)
  | spread (operand : Expr)
  | indexOrInstantiate (operand : Expr) (args : List Expr)
  | slice (operand : Expr) (start stop : Option Expr)
  | member (object : Expr) (name : List Char)
  /-- What `Others` parse, by the tokens of it. -/
  | other (tokens : List Token)

/-! ## The state of the parser -/

/-- The tokens from the current one on. -/
structure ParserState where
  tokens : List Token
  diagnostics : DiagnosticEngine

abbrev ParserM := StateT ParserState Option

/-- A call that ran out of fuel. -/
def outOfFuel {α : Type} : ParserM α := fun _ => none

def ParserState.current (st : ParserState) : Token :=
  st.tokens.headD ⟨.eof, [], { filename := "" }⟩

def ParserState.atEnd (st : ParserState) : Bool := st.current.kind = .eof

def ParserState.check (st : ParserState) (kind : TokenKind) : Bool := st.current.kind = kind

/-- Whether a token ahead is of the kind. -/
def ParserState.checkAt (st : ParserState) (offset : Nat) (kind : TokenKind) : Bool :=
  st.tokens[offset]?.any (·.kind = kind)

/-- The next token becomes current, unless this is the end. -/
def ParserState.advance (st : ParserState) : ParserState :=
  if st.atEnd then st else { st with tokens := st.tokens.tail }

def ParserState.reportError (st : ParserState) (message : String) : ParserState :=
  { st with diagnostics := st.diagnostics.reportError .parser st.current.location message }

def current : ParserM Token := fun st => some (st.current, st)

def advance : ParserM Token := fun st => some (st.current, st.advance)

def check (kind : TokenKind) : ParserM Bool := fun st => some (st.check kind, st)

def checkAt (offset : Nat) (kind : TokenKind) : ParserM Bool :=
  fun st => some (st.checkAt offset kind, st)

def reportError (message : String) : ParserM Unit := fun st => some ((), st.reportError message)

def matchKind (kind : TokenKind) : ParserM Bool := fun st =>
  some (if st.check kind then (true, st.advance) else (false, st))

/-- The token should be of the kind; it is passed only if it is. -/
def expect (kind : TokenKind) (message : String) : ParserM Token := fun st =>
  some (if st.check kind then (st.current, st.advance)
    else (st.current, st.reportError
      ("expected " ++ message ++ ", got '" ++ String.ofList st.current.lexeme ++ "'")))

def expectIdentifier : ParserM (List Char) := do
  return (← expect .identifier "identifier").lexeme

/-- The end of a turn of a loop: it has to have passed a token. -/
def progressGuard (startOffset : Nat) : ParserM Unit := fun st =>
  some ((), if !st.atEnd && st.current.location.offset = startOffset then st.advance else st)

def skipSemicolons : Nat → ParserM Unit
  | 0 => outOfFuel
  | fuel + 1 => do if ← matchKind .semicolon then skipSemicolons fuel

/-- The routines that are called from further in. -/
structure Calls where
  expr : ParserM Expr
  unary : ParserM Expr
  assignExpr : ParserM Expr

/-- The routines for what is not modelled. -/
structure Others where
  primary : ParserM Expr
  importExpr : ParserM Expr
  type : ParserM Expr
  taggedVariant : Expr → List Char → ParserM Expr

section Routines

variable (o : Others) (r : Calls) (fuel : Nat)

/-! ## Operands -/

/-- The value of a digit, as an unsigned number of 64 bits. -/
def toInt (ch : Char) : BitVec 64 :=
  if ch.isDigit then BitVec.ofNat 64 ch.toNat - BitVec.ofNat 64 '0'.toNat
  else 10 + (BitVec.ofNat 64 ch.toLower.toNat - BitVec.ofNat 64 'a'.toNat)

/-- The value of the digits, or nothing if it does not fit in 64 bits. -/
def accumulate (base : BitVec 64) : BitVec 64 → List Char → Option (BitVec 64)
  | value, [] => some value
  | value, ch :: rest =>
    if ch = '_' then accumulate base value rest
    else if value > (BitVec.allOnes 64 - toInt ch) / base then none
    else accumulate base (value * base + toInt ch) rest

/-- The base of a literal, and its digits. -/
def literalBase (lexeme : List Char) : BitVec 64 × List Char :=
  match lexeme with
  | '0' :: 'x' :: digits | '0' :: 'X' :: digits => (16, digits)
  | '0' :: 'b' :: digits | '0' :: 'B' :: digits => (2, digits)
  | '0' :: 'o' :: digits | '0' :: 'O' :: digits => (8, digits)
  | digits => (10, digits)

def parseLiteralIntegerExpr : ParserM Expr := do
  let st ← get
  let token ← advance
  let (base, digits) := literalBase token.lexeme
  match accumulate base 0 digits with
  | some value => return .literalInteger value
  | none =>
    set { (← get) with
      diagnostics := (← get).diagnostics.reportError .parser st.current.location
        ("integer literal '" ++ String.ofList token.lexeme ++ "' does not fit in 64 bits") }
    return .literalInteger 0

def parsePrimary : ParserM Expr := do
  match (← current).kind with
  | .intLiteral => parseLiteralIntegerExpr
  | .kwTrue => let _ ← advance; return .literalBool true
  | .kwFalse => let _ ← advance; return .literalBool false
  | .identifier => return .ident (← advance).lexeme
  | .lParen =>
    let _ ← advance
    let inner ← r.expr
    let _ ← expect .rParen "')'"
    return inner
  | _ => o.primary

/-- The tokens that only a type starts with. -/
def startsTypeOnly : TokenKind → Bool
  | .star | .lBracket | .kwStruct | .kwEnum | .kwUnion | .kwBitset | .kwFn | .kwTrait | .kwU8
  | .kwU16 | .kwU32 | .kwU64 | .kwI8 | .kwI16 | .kwI32 | .kwI64 | .kwF32 | .kwF64 | .kwUSize
  | .kwBool | .kwByte | .kwError | .kwAnyptr | .kwType | .kwAny => true
  | _ => false

def parseGenericArg : ParserM Expr := do
  if startsTypeOnly (← current).kind then o.type else r.expr

def parseGenericArgListTail : Nat → List Expr → ParserM (List Expr)
  | 0, _ => outOfFuel
  | fuel + 1, args => do
    let token ← current
    if token.kind = .rBracket || token.kind = .eof then return args
    let arg ← parseGenericArg o r
    if !(← check .rBracket) then let _ ← expect .comma "','"
    progressGuard token.location.offset
    parseGenericArgListTail fuel (args ++ [arg])

/-- The end of a slice, after `..`. -/
def parseSliceEnd (operand : Expr) (start : Option Expr) : ParserM Expr := do
  if ← check .rBracket then
    let _ ← expect .rBracket "']'"
    return .slice operand start none
  else
    let stop ← r.expr
    let _ ← expect .rBracket "']'"
    return .slice operand start (some stop)

def parseIndexOrSliceExpr (operand : Expr) : ParserM Expr := do
  let _ ← expect .lBracket "'['"
  if ← matchKind .dotDot then parseSliceEnd r operand none
  else
    let isType := startsTypeOnly (← current).kind
    let first ← parseGenericArg o r
    if ← (if isType then return false else matchKind .dotDot) then
      parseSliceEnd r operand (some first)
    else
      if !(← check .rBracket) then let _ ← expect .comma "','"
      let args ← parseGenericArgListTail o r fuel [first]
      let _ ← expect .rBracket "']'"
      return .indexOrInstantiate operand args

/-- The arguments of a call, up to the parenthesis. -/
def parseArgs : Nat → List Expr → ParserM (List Expr)
  | 0, _ => outOfFuel
  | fuel + 1, args => do
    let token ← current
    if token.kind = .rParen || token.kind = .eof then return args
    let arg ← r.expr
    let arg ← (do if ← matchKind .dotDotDot then return Expr.spread arg else return arg)
    skipSemicolons fuel
    if !(← check .rParen) then let _ ← expect .comma "','"
    progressGuard token.location.offset
    parseArgs fuel (args ++ [arg])

/-- A braced payload follows: `{.field = `. -/
def looksLikeVariantPayload : ParserM Bool := do
  return (← check .lBrace) && (← checkAt 1 .dot) && (← checkAt 2 .identifier) &&
    (← checkAt 3 .equal)

/-- A path of names. -/
def isTypePath : Expr → Bool
  | .ident _ => true
  | .member object _ => isTypePath object
  | _ => false

/-- What follows an operand: calls, members, indices, `.*`, `++` and `--`. -/
def postfixLoop : Nat → Expr → ParserM Expr
  | 0, _ => outOfFuel
  | fuel + 1, expr => do
    match (← current).kind with
    | .lParen =>
      let _ ← advance
      let args ← parseArgs r fuel []
      let _ ← expect .rParen "')'"
      postfixLoop fuel (.call expr args)
    | .dot =>
      if ← checkAt 1 .star then
        let _ ← advance
        let _ ← advance
        postfixLoop fuel (.unary .deref expr)
      else
        let _ ← advance
        let name ← expectIdentifier
        if (← looksLikeVariantPayload) && isTypePath expr then
          postfixLoop fuel (← o.taggedVariant expr name)
        else postfixLoop fuel (.member expr name)
    | .plusPlus => let _ ← advance; postfixLoop fuel (.incrDecr expr true false)
    | .minusMinus => let _ ← advance; postfixLoop fuel (.incrDecr expr false false)
    | .lBracket => postfixLoop fuel (← parseIndexOrSliceExpr o r fuel expr)
    | _ => return expr

def parsePostfix : ParserM Expr := do postfixLoop o r fuel (← parsePrimary o r)

def matchUnaryOp : TokenKind → Option UnaryOp
  | .minus => some .negate
  | .bang => some .logicalNot
  | .tilde => some .bitwiseNot
  | .ampersand => some .addressOf
  | _ => none

def parseUnary : ParserM Expr := do
  let kind := (← current).kind
  if kind = .kwTry then
    let _ ← advance
    return .tryExpr (← parsePostfix o r fuel)
  else if kind = .plusPlus || kind = .minusMinus then
    let _ ← advance
    return .incrDecr (← r.unary) (kind = .plusPlus) true
  else
    match matchUnaryOp kind with
    | some op =>
      let _ ← advance
      return .unary op (← r.unary)
    | none => parsePostfix o r fuel

/-! ## Binary operators -/

/-- Operators of one precedence, from left to right. -/
def binaryLoop (op? : TokenKind → Option BinaryOp) (operand : ParserM Expr) : Nat → Expr → ParserM Expr
  | 0, _ => outOfFuel
  | fuel + 1, lhs => do
    match op? (← current).kind with
    | some op =>
      let _ ← advance
      let rhs ← operand
      binaryLoop op? operand fuel (.binary op lhs rhs)
    | none => return lhs

def parseBinary (op? : TokenKind → Option BinaryOp) (operand : ParserM Expr) (fuel : Nat) :
    ParserM Expr := do
  binaryLoop op? operand fuel (← operand)

def multiplicativeOp : TokenKind → Option BinaryOp
  | .star => some .mul
  | .slash => some .div
  | .percent => some .mod
  | _ => none

def additiveOp : TokenKind → Option BinaryOp
  | .plus => some .add
  | .minus => some .sub
  | _ => none

def shiftOp : TokenKind → Option BinaryOp
  | .shiftLeft => some .shiftLeft
  | .shiftRight => some .shiftRight
  | _ => none

def comparisonOp : TokenKind → Option BinaryOp
  | .less => some .less
  | .greater => some .greater
  | .lessEqual => some .lessEqual
  | .greaterEqual => some .greaterEqual
  | _ => none

def equalityOp : TokenKind → Option BinaryOp
  | .equalEqual => some .equal
  | .bangEqual => some .notEqual
  | _ => none

def bitwiseAndOp : TokenKind → Option BinaryOp
  | .ampersand => some .bitwiseAnd
  | _ => none

def bitwiseXorOp : TokenKind → Option BinaryOp
  | .caret | .tilde => some .bitwiseXor
  | _ => none

def bitwiseOrOp : TokenKind → Option BinaryOp
  | .pipe => some .bitwiseOr
  | _ => none

def logicalAndOp : TokenKind → Option BinaryOp
  | .ampAmp => some .logicalAnd
  | _ => none

def logicalOrOp : TokenKind → Option BinaryOp
  | .pipePipe => some .logicalOr
  | _ => none

def parseMultiplicative : ParserM Expr := parseBinary multiplicativeOp (parseUnary o r fuel) fuel

def parseAdditive : ParserM Expr := parseBinary additiveOp (parseMultiplicative o r fuel) fuel

def parseShift : ParserM Expr := parseBinary shiftOp (parseAdditive o r fuel) fuel

def parseComparison : ParserM Expr := parseBinary comparisonOp (parseShift o r fuel) fuel

def parseEquality : ParserM Expr := parseBinary equalityOp (parseComparison o r fuel) fuel

def parseBitwiseAnd : ParserM Expr := parseBinary bitwiseAndOp (parseEquality o r fuel) fuel

def parseBitwiseXor : ParserM Expr := parseBinary bitwiseXorOp (parseBitwiseAnd o r fuel) fuel

def parseBitwiseOr : ParserM Expr := parseBinary bitwiseOrOp (parseBitwiseXor o r fuel) fuel

/-- `in` does not chain. -/
def parseInExpr : ParserM Expr := do
  let lhs ← parseBitwiseOr o r fuel
  if ← matchKind .kwIn then return .binary .in lhs (← parseBitwiseOr o r fuel)
  else return lhs

def parseLogicalAnd : ParserM Expr := parseBinary logicalAndOp (parseInExpr o r fuel) fuel

def parseLogicalOr : ParserM Expr := parseBinary logicalOrOp (parseLogicalAnd o r fuel) fuel

/-! ## Conditions and assignments -/

def parseTernaryExpr : ParserM Expr := do
  let expr ← parseLogicalOr o r fuel
  if ← matchKind .question then
    let thenExpr ← r.expr
    let _ ← expect .colon "':'"
    return .ternary expr thenExpr (← r.expr)
  else return expr

def parseWhenExpr : ParserM Expr := do
  let expr ← parseTernaryExpr o r fuel
  if ← matchKind .kwWhen then
    let condition ← parseTernaryExpr o r fuel
    let _ ← expect .kwElse "'else'"
    return .whenExpr condition expr (← r.expr)
  else return expr

def matchAssignOp : TokenKind → Option AssignOp
  | .equal => some .assign
  | .plusEqual => some .addAssign
  | .minusEqual => some .subAssign
  | .starEqual => some .mulAssign
  | .slashEqual => some .divAssign
  | .ampEqual => some .andAssign
  | .pipeEqual => some .orAssign
  | .caretEqual => some .xorAssign
  | .shiftLeftEqual => some .shlAssign
  | .shiftRightEqual => some .shrAssign
  | .tildeEqual => some .toggleAssign
  | _ => none

def parseAssignExpr : ParserM Expr := do
  let expr ← parseWhenExpr o r fuel
  match matchAssignOp (← current).kind with
  | some op =>
    let _ ← advance
    return .assign op expr (← r.assignExpr)
  | none => return expr

/-- An expression that is not the value of a constant, where an import is an error. -/
def parseExprWith : ParserM Expr := do
  if ← check .kwImport then
    reportError "'import()' can only be used to initialize a 'const' declaration with no explicit type"
    o.importExpr
  else parseAssignExpr o r fuel

end Routines

def calls (o : Others) : Nat → Calls
  | 0 => ⟨outOfFuel, outOfFuel, outOfFuel⟩
  | fuel + 1 =>
    let r := calls o fuel
    ⟨parseExprWith o r fuel, parseUnary o r fuel, parseAssignExpr o r fuel⟩

/-- `parse_expr` on a list of tokens. -/
def parseExpr (o : Others) (tokens : List Token) (diagnostics : DiagnosticEngine) :
    Option (Expr × ParserState) :=
  (calls o (tokens.length + 1)).expr ⟨tokens, diagnostics⟩

end Mirage.Syntax
