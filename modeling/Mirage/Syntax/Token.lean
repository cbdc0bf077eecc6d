import Mathlib.Data.List.Basic
import Mathlib.Tactic.Common

/-!
# Tokens and diagnostics

What the stages of the front end hand to each other: tokens with the place they were read at, and
the diagnostics that the stages report. A `DiagnosticEngine` keeps what was reported. A report that
says what was said before is dropped, and so is every report after the `maxErrors`-th error.
-/

namespace Mirage.Syntax

inductive TokenKind
  -- literals
  | intLiteral | floatLiteral | stringLiteral | charLiteral | identifier
  -- keywords
  | kwConst | kwMut | kwFn | kwType | kwTrait | kwStruct | kwImpl | kwFor | kwPub | kwContinue
  | kwBreak | kwReturn | kwReturnErr | kwReturnOk | kwIf | kwElse | kwWhile | kwIn | kwImport
  | kwImportBin | kwNamespace | kwAsm | kwMacro | kwTry | kwWhen | kwNil | kwTrue | kwFalse
  | kwSizeOf | kwAlignOf | kwTypeOf | kwTypeInfoOf | kwOffsetOf | kwStackAlloc | kwCast | kwEnum
  | kwBitset | kwIota | kwDefault | kwUndefined | kwLen | kwMatch | kwUnion | kwSwitch | kwDefer
  -- primitive type keywords
  | kwU8 | kwU16 | kwU32 | kwU64 | kwI8 | kwI16 | kwI32 | kwI64 | kwF32 | kwF64 | kwUSize | kwBool
  | kwByte | kwError | kwAnyptr | kwAny
  -- operators
  | plus | minus | star | slash | percent | ampersand | pipe | caret | tilde | tildeEqual
  | shiftLeft | shiftRight | equalEqual | bangEqual | less | greater | lessEqual | greaterEqual
  | ampAmp | pipePipe | bang | equal | plusEqual | minusEqual | starEqual | slashEqual | ampEqual
  | pipeEqual | caretEqual | shiftLeftEqual | shiftRightEqual | plusPlus | minusMinus | colonEqual
  | arrow | dotDot | dotDotDot | question | colon
  -- punctuation
  | lParen | rParen | lBrace | rBrace | lBracket | rBracket | comma | dot | semicolon | at | hash
  | dollar
  -- special
  | asmBlock | eof
  deriving DecidableEq, Repr

/-- A range of a source file. Its length is 1 where nothing else is given. -/
structure SourceLocation where
  filename : String
  line : Nat := 1
  column : Nat := 1
  offset : Nat := 0
  length : Nat := 1
  deriving DecidableEq, Repr

structure Token where
  kind : TokenKind
  lexeme : List Char
  location : SourceLocation
  deriving DecidableEq, Repr

inductive DiagnosticLevel
  | error | warning
  deriving DecidableEq, Repr

inductive DiagnosticStage
  | lexer | parser | sema | codegen
  deriving DecidableEq, Repr

structure Diagnostic where
  level : DiagnosticLevel
  stage : DiagnosticStage
  location : SourceLocation
  message : String
  deriving DecidableEq, Repr

/-- What two reports that count as one have in common: all but the extent of the range. -/
def Diagnostic.key (d : Diagnostic) :
    DiagnosticLevel × DiagnosticStage × String × Nat × Nat × String :=
  (d.level, d.stage, d.location.filename, d.location.line, d.location.column, d.message)

/-- The diagnostics in the order they were reported in. -/
structure DiagnosticEngine where
  diagnostics : List Diagnostic := []

namespace DiagnosticEngine

def maxErrors : Nat := 20

def errorCount (e : DiagnosticEngine) : Nat :=
  e.diagnostics.countP fun d => d.level = .error

def hasReachedMaxErrors (e : DiagnosticEngine) : Bool := e.errorCount ≥ maxErrors

def report (e : DiagnosticEngine) (level : DiagnosticLevel) (stage : DiagnosticStage)
    (location : SourceLocation) (message : String) : DiagnosticEngine :=
  let d : Diagnostic := ⟨level, stage, location, message⟩
  if e.hasReachedMaxErrors then e
  else if d.key ∈ e.diagnostics.map Diagnostic.key then e
  else ⟨e.diagnostics ++ [d]⟩

def reportError (e : DiagnosticEngine) (stage : DiagnosticStage) (location : SourceLocation)
    (message : String) : DiagnosticEngine :=
  e.report .error stage location message

/-- What is reported stays reported. -/
theorem mem_report {e : DiagnosticEngine} {d : Diagnostic} (h : d ∈ e.diagnostics)
    (level : DiagnosticLevel) (stage : DiagnosticStage) (location : SourceLocation)
    (message : String) : d ∈ (e.report level stage location message).diagnostics := by
  rw [report]
  split_ifs
  · exact h
  · exact h
  · exact List.mem_append_left _ h

/-- A report adds its diagnostic or nothing. -/
theorem of_mem_report {e : DiagnosticEngine} {d : Diagnostic} {level : DiagnosticLevel}
    {stage : DiagnosticStage} {location : SourceLocation} {message : String}
    (h : d ∈ (e.report level stage location message).diagnostics) :
    d ∈ e.diagnostics ∨ d = ⟨level, stage, location, message⟩ := by
  rw [report] at h
  split_ifs at h
  · exact .inl h
  · exact .inl h
  · simpa using h

/-- An error that nothing before it repeats is there afterwards, or the engine is full. -/
theorem reported_of_fresh {e : DiagnosticEngine} {stage : DiagnosticStage}
    {location : SourceLocation} {message : String}
    (h : ∀ d ∈ e.diagnostics, d.key ≠ (⟨.error, stage, location, message⟩ : Diagnostic).key) :
    (e.reportError stage location message).hasReachedMaxErrors = true ∨
      ⟨.error, stage, location, message⟩ ∈ (e.reportError stage location message).diagnostics := by
  rw [reportError, report]
  split_ifs with hmax hmem
  · exact .inl hmax
  · obtain ⟨d, hd, hkey⟩ := List.mem_map.mp hmem
    exact absurd hkey (h d hd)
  · exact .inr (List.mem_append_right _ (List.mem_singleton_self _))

/-- An engine that is full stays full. -/
theorem hasReachedMaxErrors_report {e : DiagnosticEngine} (h : e.hasReachedMaxErrors = true)
    (level : DiagnosticLevel) (stage : DiagnosticStage) (location : SourceLocation)
    (message : String) :
    (e.report level stage location message).hasReachedMaxErrors = true := by
  rw [report, if_pos h]
  exact h

end DiagnosticEngine

/-- The words of the language. -/
def keywords : List (String × TokenKind) :=
  [("const", .kwConst), ("mut", .kwMut), ("fn", .kwFn), ("type", .kwType), ("trait", .kwTrait),
   ("struct", .kwStruct), ("impl", .kwImpl), ("for", .kwFor), ("pub", .kwPub),
   ("continue", .kwContinue), ("break", .kwBreak), ("return", .kwReturn),
   ("return_err", .kwReturnErr), ("return_ok", .kwReturnOk), ("if", .kwIf), ("else", .kwElse),
   ("while", .kwWhile), ("in", .kwIn), ("import", .kwImport), ("import_bin", .kwImportBin),
   ("namespace", .kwNamespace), ("asm", .kwAsm), ("macro", .kwMacro), ("try", .kwTry),
   ("when", .kwWhen), ("nil", .kwNil), ("true", .kwTrue), ("false", .kwFalse),
   ("size_of", .kwSizeOf), ("align_of", .kwAlignOf), ("type_of", .kwTypeOf),
   ("type_info_of", .kwTypeInfoOf), ("offsetof", .kwOffsetOf), ("stackalloc", .kwStackAlloc),
   ("cast", .kwCast), ("enum", .kwEnum), ("bitset", .kwBitset), ("iota", .kwIota),
   ("default", .kwDefault), ("undefined", .kwUndefined), ("len", .kwLen), ("match", .kwMatch),
   ("union", .kwUnion), ("switch", .kwSwitch), ("defer", .kwDefer), ("u8", .kwU8), ("u16", .kwU16),
   ("u32", .kwU32), ("u64", .kwU64), ("i8", .kwI8), ("i16", .kwI16), ("i32", .kwI32),
   ("i64", .kwI64), ("f32", .kwF32), ("f64", .kwF64), ("usize", .kwUSize), ("bool", .kwBool),
   ("byte", .kwByte), ("error", .kwError), ("anyptr", .kwAnyptr), ("any", .kwAny)]

end Mirage.Syntax
