import Mirage.Lib.Cursor
import Mirage.Syntax.Token

/-!
# The lexer

The lexer reads a source file from its first byte to its last. A byte is a `Char` here, of the
same value. Whitespace and comments are skipped before each token, and the first byte of a token
selects the sub-lexer that reads the rest of it. There are three ways in which the lexer is more
than a function of the next bytes:

* a line feed after a token that can end a statement gives a virtual semicolon;
* the body of an `asm` block is one token, whatever is in it. It follows the keyword, or a header
  of at most `asmHeaderTokenBudget` tokens;
* what cannot be read is reported, and the lexer goes on behind it.

`Scan` is what the sub-lexers change, a cursor and the diagnostics, and `Lexer` has what is
remembered from one token to the next.
-/

namespace Mirage.Syntax

def isDigit (ch : Char) : Bool := ch.isDigit

def isHexDigit (ch : Char) : Bool :=
  ch.isDigit || ('a' ≤ ch && ch ≤ 'f') || ('A' ≤ ch && ch ≤ 'F')

def isAlpha (ch : Char) : Bool := ch.isAlpha

def isAlphaNumeric (ch : Char) : Bool := ch.isAlphanum

/-- The tokens that can end a statement. -/
def isAsiTrigger : TokenKind → Bool
  | .identifier | .intLiteral | .floatLiteral | .stringLiteral | .charLiteral | .kwTrue | .kwFalse
  | .kwNil | .kwDefault | .kwUndefined | .rParen | .rBrace | .rBracket | .plusPlus | .minusMinus
  | .kwReturn | .kwReturnOk | .kwBreak | .kwContinue | .asmBlock => true
  | _ => false

/-- A place in the source, and what has been reported so far. -/
structure Scan (text : List Char) where
  cursor : Cursor text
  diagnostics : DiagnosticEngine

namespace Scan

variable {text : List Char}

def atEnd (s : Scan text) : Bool := s.cursor.atEnd

/-- The next byte. The end of the file reads as a line feed. -/
def peek (s : Scan text) : Char := s.cursor.rest.headD '\n'

def peekNext (s : Scan text) : Char := s.cursor.rest.tail.headD '\x00'

def advance (s : Scan text) : Scan text := { s with cursor := s.cursor.advance }

def advanceWhile (p : Char → Bool) (s : Scan text) : Scan text :=
  { s with cursor := s.cursor.advanceWhile p }

def advanceAtMost (n : Nat) (p : Char → Bool) (s : Scan text) : Scan text :=
  { s with cursor := s.cursor.advanceAtMost p n }

/-- Pass the expected byte if it is the next one. -/
def accept (expected : Char) (s : Scan text) : Bool × Scan text :=
  if s.cursor.rest.head? = some expected then (true, s.advance) else (false, s)

def skipDigits (s : Scan text) : Scan text := s.advanceWhile fun ch => isDigit ch || ch == '_'

end Scan

section Locations

variable {text : List Char} (filename : String)

def makeLocation (c : Cursor text) : SourceLocation :=
  { filename, line := c.line, column := c.column, offset := c.pos }

/-- The range from `start` to the cursor. -/
def makeRange (start c : Cursor text) : SourceLocation :=
  { filename, line := start.line, column := start.column, offset := start.pos
    length := c.pos - start.pos }

def makeToken (kind : TokenKind) (start c : Cursor text) : Token :=
  ⟨kind, Cursor.slice text start.pos c.pos, makeRange filename start c⟩

def makeEof (c : Cursor text) : Token := ⟨.eof, [], makeLocation filename c⟩

end Locations

/-- The message about a byte that no token starts with. -/
def unexpectedCharacter (ch : Char) : String :=
  "unexpected character '" ++ String.singleton ch ++ "'"

namespace Scan

variable {text : List Char} (filename : String)

def reportError (location : SourceLocation) (message : String) (s : Scan text) : Scan text :=
  { s with diagnostics := s.diagnostics.reportError .lexer location message }

end Scan

/-! ## Whitespace and comments -/

/-- To the end of a block comment that is open, and whether there is a line feed before it. -/
def blockCommentBody {text : List Char} (crossedNewline : Bool) (c : Cursor text) :
    Bool × Cursor text :=
  match _ : c.rest with
  | [] => (crossedNewline, c)
  | ch :: rest =>
    if ch = '*' ∧ rest.head? = some '/' then (crossedNewline, c)
    else blockCommentBody (crossedNewline || ch == '\n') c.advance
termination_by c.rest.length
decreasing_by exact Cursor.length_advance_lt ‹_›

theorem pos_le_blockCommentBody {text : List Char} (crossedNewline : Bool) (c : Cursor text) :
    c.pos ≤ (blockCommentBody crossedNewline c).2.pos := by
  fun_induction blockCommentBody crossedNewline c with
  | case1 => exact Nat.le_refl _
  | case2 => exact Nat.le_refl _
  | case3 _ c _ _ _ _ ih => exact Nat.le_trans c.pos_le_advance ih

namespace Scan

variable {text : List Char} (filename : String)

/-- A block comment, from its first byte on. -/
def skipBlockComment (crossedNewline : Bool) (s : Scan text) : Bool × Scan text :=
  let body := blockCommentBody crossedNewline s.cursor.advance.advance
  let s' : Scan text := { s with cursor := body.2 }
  if s'.atEnd then
    (body.1, s'.reportError (makeLocation filename s'.cursor) "unterminated block comment")
  else (body.1, s'.advance.advance)

theorem pos_le_skipBlockComment (crossedNewline : Bool) (s : Scan text) :
    s.cursor.advance.pos ≤ (s.skipBlockComment filename crossedNewline).2.cursor.pos := by
  have hbody := pos_le_blockCommentBody crossedNewline s.cursor.advance.advance
  have hadv := s.cursor.advance.pos_le_advance
  rw [skipBlockComment]
  split_ifs
  · exact Nat.le_trans hadv hbody
  · exact Nat.le_trans (Nat.le_trans hadv hbody)
      (Nat.le_trans (Cursor.pos_le_advance _) (Cursor.pos_le_advance _))

/-- The loop that skips whitespace and comments. Its result says whether a line feed was passed. -/
def skipLoop (crossedNewline : Bool) (s : Scan text) : Bool × Scan text :=
  match _ : s.cursor.rest with
  | [] => (crossedNewline, s)
  | ch :: _ =>
    if ch = ' ' ∨ ch = '\t' ∨ ch = '\r' then skipLoop crossedNewline s.advance
    else if ch = '\n' then skipLoop true s.advance
    else if _ : ch = '/' ∧ s.peekNext = '/' then
      skipLoop crossedNewline (s.advanceWhile (· ≠ '\n'))
    else if ch = '/' ∧ s.peekNext = '*' then
      let comment := s.skipBlockComment filename crossedNewline
      skipLoop comment.1 comment.2
    else (crossedNewline, s)
termination_by s.cursor.rest.length
decreasing_by
  · exact Cursor.length_advance_lt ‹_›
  · exact Cursor.length_advance_lt ‹_›
  · have hslash : ch = '/' ∧ s.peekNext = '/' := ‹_›
    refine Nat.lt_of_le_of_lt (Cursor.length_le_of_pos_le ?_) (Cursor.length_advance_lt ‹_›)
    exact Cursor.pos_advance_le_advanceWhile ‹_› (by simp [hslash.1])
  · exact Nat.lt_of_le_of_lt (Cursor.length_le_of_pos_le (pos_le_skipBlockComment filename _ s))
      (Cursor.length_advance_lt ‹_›)

def skipWhitespaceAndComments (s : Scan text) : Bool × Scan text := s.skipLoop filename false

/-! ## Numbers -/

/-- The exponent of a float, and whether there is one. -/
def lexExponent (s : Scan text) : Bool × Scan text :=
  if s.cursor.rest.head? = some 'e' ∨ s.cursor.rest.head? = some 'E' then
    let s := s.advance
    let s := if s.cursor.rest.head? = some '+' ∨ s.cursor.rest.head? = some '-' then s.advance
      else s
    let digits := s.skipDigits
    if digits.cursor.pos = s.cursor.pos then
      (true, digits.reportError (makeLocation filename digits.cursor)
        "missing digits in float exponent")
    else (true, digits)
  else (false, s)

/-- A number with a prefix for its base, after the first byte of the prefix. -/
def lexPrefixedNumber (isBaseDigit : Char → Bool) (start : Cursor text) (s : Scan text) :
    Token × Scan text :=
  let s := s.advance
  let digits := s.advanceWhile fun ch => isBaseDigit ch || ch == '_'
  let sawDigit := (Cursor.slice text s.cursor.pos digits.cursor.pos).any (· ≠ '_')
  let digits := if sawDigit then digits
    else digits.reportError (makeLocation filename digits.cursor)
      "missing digits after integer base prefix"
  (makeToken filename .intLiteral start digits.cursor, digits)

def lexHexNumber : Cursor text → Scan text → Token × Scan text :=
  lexPrefixedNumber filename isHexDigit

def lexBinaryNumber : Cursor text → Scan text → Token × Scan text :=
  lexPrefixedNumber filename fun ch => ch == '0' || ch == '1'

def lexOctalNumber : Cursor text → Scan text → Token × Scan text :=
  lexPrefixedNumber filename fun ch => '0' ≤ ch && ch ≤ '7'

/-- A number without a prefix: digits, a fraction and an exponent. -/
def lexDecimalNumber (start : Cursor text) (s : Scan text) : Token × Scan text :=
  let digits := s.skipDigits
  let isFraction := digits.cursor.rest.head? = some '.' ∧ isDigit digits.peekNext = true
  let fraction := if isFraction then digits.advance.skipDigits else digits
  let exponent := fraction.lexExponent filename
  let isFloat := isFraction ∨ exponent.1 = true
  (makeToken filename (if isFloat then .floatLiteral else .intLiteral) start exponent.2.cursor,
    exponent.2)

def lexNumber (start : Cursor text) (s : Scan text) : Token × Scan text :=
  if start.rest.head? = some '0' then
    match s.cursor.rest.head? with
    | some 'x' | some 'X' => s.lexHexNumber filename start
    | some 'b' | some 'B' => s.lexBinaryNumber filename start
    | some 'o' | some 'O' => s.lexOctalNumber filename start
    | _ => s.lexDecimalNumber filename start
  else s.lexDecimalNumber filename start

/-- A number without an integer part. The full stop is passed, and a digit follows it. -/
def lexFractionalNumber (start : Cursor text) (s : Scan text) : Token × Scan text :=
  let exponent := s.skipDigits.lexExponent filename
  (makeToken filename .floatLiteral start exponent.2.cursor, exponent.2)

/-! ## Words -/

def lexIdentifierOrKeyword (start : Cursor text) (s : Scan text) : Token × Scan text :=
  let s := s.advanceWhile fun ch => isAlphaNumeric ch || ch == '_'
  let word := String.ofList (Cursor.slice text start.pos s.cursor.pos)
  match keywords.lookup word with
  | some kind => (makeToken filename kind start s.cursor, s)
  | none => (makeToken filename .identifier start s.cursor, s)

/-! ## Literals in quotes -/

end Scan

/-- To the quote, the line feed or the end that a string literal ends at. A backslash takes the
    byte behind it along, unless that is a line feed. -/
def stringBody {text : List Char} (c : Cursor text) : Cursor text :=
  match _ : c.rest with
  | [] => c
  | ch :: _ =>
    if ch = '"' ∨ ch = '\n' then c
    else if ch = '\\' then
      match _ : c.advance.rest with
      | [] => c.advance
      | ch' :: _ => if ch' = '\n' then c.advance else stringBody c.advance.advance
    else stringBody c.advance
termination_by c.rest.length
decreasing_by
  · exact Nat.lt_trans (Cursor.length_advance_lt ‹_›) (Cursor.length_advance_lt ‹_›)
  · exact Cursor.length_advance_lt ‹_›

namespace Scan

variable {text : List Char} (filename : String)

def lexString (start : Cursor text) (s : Scan text) : Token × Scan text :=
  let s : Scan text := { s with cursor := stringBody s.cursor }
  if s.peek = '\n' then
    (makeToken filename .stringLiteral start s.cursor,
      s.reportError (makeRange filename start s.cursor) "unterminated string literal")
  else (makeToken filename .stringLiteral start s.advance.cursor, s.advance)

/-- The escape of a character literal, from the backslash on. -/
def charEscape (s : Scan text) : Scan text :=
  let s := s.advance
  if s.peek = '\n' then s
  else if s.peek = 'x' then s.advance.advanceAtMost 2 isHexDigit
  else if '0' ≤ s.peek ∧ s.peek ≤ '7' then
    s.advance.advanceAtMost 2 fun ch => '0' ≤ ch && ch ≤ '7'
  else s.advance

/-- The end of a character literal: its second quote, or a report that there is none. -/
def closeChar (start : Cursor text) (s : Scan text) : Token × Scan text :=
  if s.cursor.rest.head? = some '\'' then
    (makeToken filename .charLiteral start s.advance.cursor, s.advance)
  else
    (makeToken filename .charLiteral start s.cursor,
      s.reportError (makeRange filename start s.cursor) "unterminated character literal")

/-- A code point of several bytes, and the quote after it if there is one. -/
def multiByteChar (start : Cursor text) (s : Scan text) : Token × Scan text :=
  let s := s.advance.advanceWhile fun ch => ch.toNat &&& 0xC0 == 0x80
  let s := (s.accept '\'').2
  (makeToken filename .charLiteral start s.cursor,
    s.reportError (makeRange filename start s.cursor)
      "multi-byte character literals are not supported")

def lexChar (start : Cursor text) (s : Scan text) : Token × Scan text :=
  if s.atEnd || s.peek == '\'' then
    let s' := s.reportError (makeLocation filename s.cursor) "empty character literal"
    -- nothing is passed at the end of the file
    (makeToken filename .charLiteral start s'.advance.cursor, s'.advance)
  else if s.peek = '\n' then
    (makeToken filename .charLiteral start s.cursor,
      s.reportError (makeRange filename start s.cursor) "unterminated character literal")
  else if s.peek = '\\' then s.charEscape.closeChar filename start
  else if s.peek.toNat ≥ 0x80 then s.multiByteChar filename start
  else s.advance.closeChar filename start

/-! ## Symbols -/

def matchDouble (start : Cursor text) (expected : Char) (double single : TokenKind)
    (s : Scan text) : Token × Scan text :=
  let m := s.accept expected
  (makeToken filename (if m.1 then double else single) start m.2.cursor, m.2)

/-- The first kind in a list whose byte is the next one, else the kind of the single symbol. -/
def matchFirst (start : Cursor text) (single : TokenKind) (s : Scan text) :
    List (Char × TokenKind) → Token × Scan text
  | [] => (makeToken filename single start s.cursor, s)
  | (expected, kind) :: others =>
    let m := s.accept expected
    if m.1 then (makeToken filename kind start m.2.cursor, m.2)
    else matchFirst start single s others

/-- A symbol, after its first byte. A byte that starts none is reported, and no token comes of
    it. -/
def lexSymbol (start : Cursor text) (ch : Char) (s : Scan text) : Option Token × Scan text :=
  let single (kind : TokenKind) : Option Token × Scan text :=
    (some (makeToken filename kind start s.cursor), s)
  let some' (result : Token × Scan text) : Option Token × Scan text := (some result.1, result.2)
  match ch with
  | '(' => single .lParen
  | ')' => single .rParen
  | '{' => single .lBrace
  | '}' => single .rBrace
  | '[' => single .lBracket
  | ']' => single .rBracket
  | ',' => single .comma
  | '~' => some' (s.matchDouble filename start '=' .tildeEqual .tilde)
  | '?' => single .question
  | ';' => single .semicolon
  | '@' => single .at
  | '#' => single .hash
  | '$' => single .dollar
  | '.' =>
    let m := s.accept '.'
    if m.1 then some' (m.2.matchDouble filename start '.' .dotDotDot .dotDot)
    else single .dot
  | '+' => some' (s.matchFirst filename start .plus [('+', .plusPlus), ('=', .plusEqual)])
  | '-' =>
    some' (s.matchFirst filename start .minus
      [('-', .minusMinus), ('=', .minusEqual), ('>', .arrow)])
  | '*' => some' (s.matchDouble filename start '=' .starEqual .star)
  | '/' => some' (s.matchDouble filename start '=' .slashEqual .slash)
  | '%' => single .percent
  | '&' => some' (s.matchFirst filename start .ampersand [('&', .ampAmp), ('=', .ampEqual)])
  | '|' => some' (s.matchFirst filename start .pipe [('|', .pipePipe), ('=', .pipeEqual)])
  | '^' => some' (s.matchDouble filename start '=' .caretEqual .caret)
  | '=' => some' (s.matchDouble filename start '=' .equalEqual .equal)
  | '!' => some' (s.matchDouble filename start '=' .bangEqual .bang)
  | '<' =>
    let m := s.accept '<'
    if m.1 then some' (m.2.matchDouble filename start '=' .shiftLeftEqual .shiftLeft)
    else some' (s.matchDouble filename start '=' .lessEqual .less)
  | '>' =>
    let m := s.accept '>'
    if m.1 then some' (m.2.matchDouble filename start '=' .shiftRightEqual .shiftRight)
    else some' (s.matchDouble filename start '=' .greaterEqual .greater)
  | ':' => some' (s.matchDouble filename start '=' .colonEqual .colon)
  | _ =>
    (none, s.reportError { makeLocation filename start with length := 1 } (unexpectedCharacter ch))

/-! ## Blocks of assembler -/

end Scan

/-- To the brace that closes a block, or to the end of the file. The result has the number of
    braces that are open there. -/
def asmBody {text : List Char} (depth : Nat) (c : Cursor text) : Nat × Cursor text :=
  match _ : c.rest with
  | [] => (depth, c)
  | ch :: _ =>
    if ch = '{' then asmBody (depth + 1) c.advance
    else if ch = '}' then if depth ≤ 1 then (0, c) else asmBody (depth - 1) c.advance
    else asmBody depth c.advance
termination_by c.rest.length
decreasing_by all_goals exact Cursor.length_advance_lt ‹_›

namespace Scan

variable {text : List Char} (filename : String)

/-- The body of an `asm` block, if one starts here. -/
def lexAsmBlock (s : Scan text) : Option Token × Scan text :=
  let s := (s.skipWhitespaceAndComments filename).2
  if s.cursor.rest.head? = some '{' then
    let body := asmBody 1 s.cursor.advance
    let s' : Scan text := { s with cursor := body.2 }
    if body.1 > 0 then
      (none, s'.reportError (makeRange filename s.cursor s'.cursor) "unterminated asm block")
    else
      (some ⟨.asmBlock, Cursor.slice text (s.cursor.pos + 1) s'.cursor.pos,
        makeRange filename s.cursor s'.cursor⟩, s'.advance)
  else (none, s)

/-! ## The loop -/

end Scan

/-- How many tokens after `asm ->` the body is looked for. -/
def asmHeaderTokenBudget : Nat := 16

/-- The lexer between two tokens. `lastTokenEnd` is where a virtual semicolon would be. -/
structure Lexer (text : List Char) extends Scan text where
  lastRealKind : Option TokenKind := none
  awaitingAsmExprBody : Bool := false
  asmHeaderBudget : Nat := 0
  lastTokenIsAsiTrigger : Bool := false
  lastTokenEnd : SourceLocation

namespace Lexer

variable {text : List Char} (filename : String)

/-- The sub-lexers, on the first byte of a token. -/
def lexFrom (start : Cursor text) (ch : Char) (s : Scan text) : Option Token × Scan text :=
  let some' (result : Token × Scan text) : Option Token × Scan text := (some result.1, result.2)
  if isDigit ch then some' (s.lexNumber filename start)
  else if isAlpha ch || ch == '_' then some' (s.lexIdentifierOrKeyword filename start)
  else if ch == '.' && isDigit s.peek then some' (s.lexFractionalNumber filename start)
  else if ch = '"' then some' (s.lexString filename start)
  else if ch = '\'' then some' (s.lexChar filename start)
  else s.lexSymbol filename start ch

/-- A semicolon that is not in the source. -/
def virtualSemicolon (l : Lexer text) : Token := ⟨.semicolon, [], l.lastTokenEnd⟩

/-- What is remembered of a real token. -/
def remember (kind : TokenKind) (l : Lexer text) : Lexer text :=
  let isDotStar := kind == .star && l.lastRealKind == some .dot
  { l with
    lastRealKind := some kind
    lastTokenIsAsiTrigger := isAsiTrigger kind || isDotStar
    lastTokenEnd := makeLocation filename l.cursor }

/-- The next token. There is none if the next byte was unexpected; that byte is passed. -/
def lexToken (l : Lexer text) : Option Token × Lexer text :=
  let skipped := l.toScan.skipWhitespaceAndComments filename
  let l : Lexer text := { l with toScan := skipped.2 }
  if skipped.1 && l.lastTokenIsAsiTrigger then
    (some l.virtualSemicolon,
      { l with lastRealKind := some .semicolon, lastTokenIsAsiTrigger := false })
  else
    match l.cursor.rest with
    | [] => (some (makeEof filename l.cursor), l)
    | ch :: _ =>
      let result := lexFrom filename l.cursor ch l.toScan.advance
      let l' : Lexer text := { l with toScan := result.2 }
      match result.1 with
      | none => (none, l')
      | some token => (some token, l'.remember filename token.kind)

/-- A block of assembler was read. -/
def rememberAsm (l : Lexer text) : Lexer text :=
  { l with
    lastRealKind := some .asmBlock
    lastTokenIsAsiTrigger := true
    lastTokenEnd := makeLocation filename l.cursor }

/-- While the header of an `asm` expression is read: look for its body. -/
def retryAsmBlock (l : Lexer text) : Option Token × Lexer text :=
  if l.awaitingAsmExprBody then
    let block := l.toScan.lexAsmBlock filename
    let l : Lexer text := { l with toScan := block.2 }
    match block.1 with
    | some token => (some token, { l with awaitingAsmExprBody := false }.rememberAsm filename)
    | none =>
      let budget := l.asmHeaderBudget - 1
      (none, { l with
        asmHeaderBudget := budget
        awaitingAsmExprBody := l.awaitingAsmExprBody && !(budget == 0) })
  else (none, l)

/-- After the keyword `asm`: its body, or the start of a header. -/
def afterAsm (l : Lexer text) : Option Token × Lexer text :=
  let block := l.toScan.lexAsmBlock filename
  let l : Lexer text := { l with toScan := block.2 }
  match block.1 with
  | some token => (some token, l.rememberAsm filename)
  | none =>
    if l.peek = '-' ∧ l.peekNext = '>' then
      (none, { l with awaitingAsmExprBody := true, asmHeaderBudget := asmHeaderTokenBudget })
    else (none, l)

/-- What one turn of the loop does: the tokens it appends, and whether it was the last one. -/
structure Turn (text : List Char) where
  tokens : List Token
  done : Bool
  lexer : Lexer text

def turn (l : Lexer text) : Turn text :=
  match l.retryAsmBlock filename with
  | (some block, l) => ⟨[block], false, l⟩
  | (none, l) =>
    match l.lexToken filename with
    | (none, l) => ⟨[], false, l⟩
    | (some token, l) =>
      if token.kind = .eof then
        if l.lastTokenIsAsiTrigger then
          ⟨[l.virtualSemicolon, token], true,
            { l with lastRealKind := some .semicolon, lastTokenIsAsiTrigger := false }⟩
        else ⟨[token], true, l⟩
      else if token.kind = .kwAsm then
        let block := l.afterAsm filename
        ⟨token :: block.1.toList, false, block.2⟩
      else ⟨[token], false, l⟩

/-- The lexer before the first token. -/
def init (text : List Char) (diagnostics : DiagnosticEngine) : Lexer text :=
  { cursor := .start text, diagnostics, lastTokenEnd := { filename := "" } }

end Lexer

end Mirage.Syntax
