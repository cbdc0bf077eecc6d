import Mirage.Syntax.ExprReads
import Mirage.Syntax.LexerSteps

/-!
# Expressions are read back from their text

The text of an expression has a space before each token. The lexer reads its lexemes one by one,
each up to the next space, and the parser reads the expression from the tokens.

* `IsLexeme.lexesAs`: words, numbers and symbols are read whole in front of a space;
* `turn_lexeme`: a turn of the lexer, `tokenizeLoop_lexemes`: all of them;
* `ordinary_body`: what is printed of an expression consists of such lexemes;
* `parseExpr_tokenize`: the lexer and the parser, on the text of an expression.
-/

namespace Mirage

namespace Cursor

variable {text : List Char}

/-- The characters between two cursors. -/
structure Moves (c : Cursor text) (w : List Char) (c' : Cursor text) : Prop where
  rest : c.rest = w ++ c'.rest
  pos : c'.pos = c.pos + w.length

theorem Moves.advance {c : Cursor text} {ch : Char} {rest : List Char} (h : c.rest = ch :: rest) :
    Moves c [ch] c.advance := by
  obtain ⟨hrest, hpos⟩ := advance_of_cons h
  exact ⟨by rw [h, hrest]; rfl, hpos⟩

theorem Moves.trans {c c' c'' : Cursor text} {w w' : List Char} (h : Moves c w c')
    (h' : Moves c' w' c'') : Moves c (w ++ w') c'' :=
  ⟨by rw [h.rest, h'.rest, List.append_assoc], by rw [h'.pos, h.pos, List.length_append]; omega⟩

theorem Moves.slice {c c' : Cursor text} {w : List Char} (h : Moves c w c') :
    Cursor.slice text c.pos c'.pos = w := by
  rw [Cursor.slice, c.rest_eq, h.rest, h.pos, Nat.add_sub_cancel_left, List.take_left]

/-- A run of characters with a property is passed, up to one without it. -/
theorem Moves.advanceWhile {p : Char → Bool} {c : Cursor text} {w tail : List Char}
    (h : c.rest = w ++ tail) (hw : ∀ ch ∈ w, p ch = true)
    (htail : ∀ ch ∈ tail.head?, p ch = false) :
    Moves c w (c.advanceWhile p) ∧ (c.advanceWhile p).rest = tail := by
  induction w generalizing c with
  | nil =>
    rw [Cursor.advanceWhile]
    split
    · exact ⟨⟨rfl, rfl⟩, h⟩
    · rename_i ch rest hcons
      rw [h, List.nil_append] at hcons
      rw [htail ch (by rw [hcons]; rfl)]
      exact ⟨⟨rfl, rfl⟩, h⟩
  | cons ch w ih =>
    obtain ⟨hch, hw⟩ := List.forall_mem_cons.1 hw
    have hadv := Moves.advance h
    obtain ⟨hmoves, hrest⟩ := ih (advance_of_cons h).1 hw
    rw [Cursor.advanceWhile]
    split
    · rename_i hnil
      rw [h] at hnil
      cases hnil
    · rename_i ch' rest' hcons
      obtain ⟨rfl, -⟩ := List.cons.inj (h.symm.trans hcons)
      rw [if_pos hch]
      exact ⟨hadv.trans hmoves, hrest⟩

end Cursor

namespace Syntax

open Cursor (Moves)
open Ast (UnaryOp BinaryOp)

/-! ## Lexemes -/

/-- What is behind a lexeme: a space, or the end of the text. -/
def Spaced (tail : List Char) : Prop := ∀ ch ∈ tail.head?, ch = ' '

/-- The symbols of expressions. -/
def symbols : List Lexeme :=
  [(.pipePipe, ['|', '|']), (.ampAmp, ['&', '&']), (.pipe, ['|']), (.caret, ['^']),
   (.ampersand, ['&']), (.equalEqual, ['=', '=']), (.bangEqual, ['!', '=']), (.less, ['<']),
   (.greater, ['>']), (.lessEqual, ['<', '=']), (.greaterEqual, ['>', '=']),
   (.shiftLeft, ['<', '<']), (.shiftRight, ['>', '>']), (.plus, ['+']), (.minus, ['-']),
   (.star, ['*']), (.slash, ['/']), (.percent, ['%']), (.equal, ['=']), (.plusEqual, ['+', '=']),
   (.minusEqual, ['-', '=']), (.starEqual, ['*', '=']), (.slashEqual, ['/', '=']),
   (.ampEqual, ['&', '=']), (.pipeEqual, ['|', '=']), (.caretEqual, ['^', '=']),
   (.shiftLeftEqual, ['<', '<', '=']), (.shiftRightEqual, ['>', '>', '=']),
   (.tildeEqual, ['~', '=']), (.bang, ['!']), (.tilde, ['~']), (.plusPlus, ['+', '+']),
   (.minusMinus, ['-', '-']), (.lParen, ['(']), (.rParen, [')']), (.lBracket, ['[']),
   (.rBracket, [']']), (.comma, [',']), (.dot, ['.']), (.question, ['?']), (.colon, [':'])]

/-- The lexemes of expressions. -/
inductive IsLexeme : Lexeme → Prop
  | word {ch : Char} {w : List Char} (hch : (isAlpha ch || ch == '_') = true)
    (hw : ∀ ch' ∈ w, (isAlphaNumeric ch' || ch' == '_') = true) :
    IsLexeme ((keywords.lookup (String.ofList (ch :: w))).getD .identifier, ch :: w)
  | number (n : Nat) : IsLexeme (.intLiteral, decimal n)
  | symbol {l : Lexeme} (h : l ∈ symbols) : IsLexeme l

section Lexemes

variable {text : List Char} (filename : String)

variable (text) in
/-- The sub-lexers read a lexeme in front of a space or the end, and report nothing. -/
def LexesAs (l : Lexeme) : Prop :=
  ∀ (start : Cursor text) (s : Scan text) (tail : List Char) (ch : Char) (w : List Char),
    l.2 = ch :: w → start.rest = l.2 ++ tail → Spaced tail → s.cursor = start.advance →
    ∃ s', Lexer.lexFrom filename start ch s = (some (makeToken filename l.1 start s'.cursor), s') ∧
      Moves start l.2 s'.cursor ∧ s'.cursor.rest = tail ∧ s'.diagnostics = s.diagnostics

theorem isDigit_of_isAlpha {ch : Char} (h : (isAlpha ch || ch == '_') = true) :
    isDigit ch = false := by
  rcases Bool.or_eq_true_iff.1 h with h | h
  · have hbounds : (decide (65 ≤ ch.val ∧ ch.val ≤ 90) ||
        decide (97 ≤ ch.val) && decide (ch.val ≤ 122)) = true := h
    show (decide (48 ≤ ch.val) && decide (ch.val ≤ 57)) = false
    simp only [Bool.or_eq_true, Bool.and_eq_true, decide_eq_true_eq, UInt32.le_iff_toNat_le,
      Bool.and_eq_false_iff, decide_eq_false_iff_not] at hbounds ⊢
    simp at hbounds ⊢
    omega
  · rw [beq_iff_eq.1 h]
    rfl

theorem lexesAs_word {ch : Char} {w : List Char} (hch : (isAlpha ch || ch == '_') = true)
    (hw : ∀ ch' ∈ w, (isAlphaNumeric ch' || ch' == '_') = true) :
    LexesAs text filename
      ((keywords.lookup (String.ofList (ch :: w))).getD .identifier, ch :: w) := by
  intro start s tail ch₀ w₀ heq hstart htail hs
  obtain ⟨rfl, rfl⟩ := List.cons.inj heq
  have hfirst := Moves.advance hstart
  have hrest : s.cursor.rest = w ++ tail := by
    rw [hs, (Cursor.advance_of_cons hstart).1]
    rfl
  obtain ⟨hmoves, hend⟩ := Moves.advanceWhile hrest hw fun ch hch => by
    rw [htail ch hch]
    rfl
  rw [← hs] at hfirst
  have hslice := (hfirst.trans hmoves).slice
  refine ⟨s.advanceWhile fun ch => isAlphaNumeric ch || ch == '_', ?_,
    hfirst.trans hmoves, hend, rfl⟩
  have hword : Cursor.slice text start.pos
      (s.advanceWhile fun ch => isAlphaNumeric ch || ch == '_').cursor.pos = ch :: w := hslice
  rw [Lexer.lexFrom, isDigit_of_isAlpha hch, hch]
  simp only [Scan.lexIdentifierOrKeyword, hword, if_true, Bool.false_eq_true, if_false]
  cases keywords.lookup (String.ofList (ch :: w)) <;> rfl

theorem isDigit_of_mem_decimal {n : Nat} {ch : Char} (h : ch ∈ decimal n) : isDigit ch = true := by
  have hdigit : ∀ d < 10, isDigit (Char.ofNat ('0'.toNat + d)) = true := by decide
  induction n using Nat.strong_induction_on with
  | _ n ih =>
    rw [decimal] at h
    split at h
    · rename_i hlt
      rw [List.mem_singleton.1 h]
      exact hdigit n hlt
    · rcases List.mem_append.1 h with h | h
      · exact ih (n / 10) (by omega) h
      · rw [List.mem_singleton.1 h]
        exact hdigit (n % 10) (by omega)

theorem Spaced.head_ne {tail : List Char} (h : Spaced tail) {ch : Char} (hch : ch ≠ ' ') :
    tail.head? ≠ some ch := fun he => hch (h ch he)

theorem lexesAs_number (n : Nat) : LexesAs text filename (.intLiteral, decimal n) := by
  intro start s tail ch w heq hstart htail hs
  have heq : decimal n = ch :: w := heq
  have hdigits : ∀ ch' ∈ ch :: w, isDigit ch' = true := fun ch' h =>
    isDigit_of_mem_decimal (heq ▸ h)
  obtain ⟨hch, hw⟩ := List.forall_mem_cons.1 hdigits
  rw [heq] at hstart ⊢
  have hfirst := Moves.advance hstart
  have hrest : s.cursor.rest = w ++ tail := by
    rw [hs, (Cursor.advance_of_cons hstart).1]
    rfl
  obtain ⟨hmoves, hend⟩ := Moves.advanceWhile (p := fun ch => isDigit ch || ch == '_') hrest
    (fun ch' hch' => by rw [hw ch' hch']; rfl) fun ch' hch' => by
      rw [htail ch' hch']
      rfl
  rw [← hs] at hfirst
  have hend : s.skipDigits.cursor.rest = tail := hend
  have hexponent : s.skipDigits.lexExponent filename = (false, s.skipDigits) := by
    rw [Scan.lexExponent, hend]
    exact if_neg (not_or.2 ⟨htail.head_ne (by decide), htail.head_ne (by decide)⟩)
  have hdecimal : s.lexDecimalNumber filename start =
      (makeToken filename .intLiteral start s.skipDigits.cursor, s.skipDigits) := by
    simp only [Scan.lexDecimalNumber, hend, htail.head_ne (show '.' ≠ ' ' by decide), false_and,
      if_false, hexponent, Bool.false_eq_true, or_self]
  have hnumber : s.lexNumber filename start = s.lexDecimalNumber filename start := by
    rw [Scan.lexNumber]
    split
    · split
      all_goals first
        | rfl
        | (rename_i hhead
           rw [hrest] at hhead
           rcases w with _ | ⟨ch', w⟩
           · exact absurd hhead (htail.head_ne (by decide))
           · rw [Option.some.inj hhead] at hw
             exact absurd (hw _ List.mem_cons_self) (by decide))
    · rfl
  refine ⟨s.skipDigits, ?_, hfirst.trans hmoves, hend, rfl⟩
  rw [Lexer.lexFrom, hch]
  simp only [hnumber, hdecimal, if_true]

/-- Behind the characters. -/
def passed (w : List Char) (s : Scan text) : Scan text := w.foldl (fun s _ => s.advance) s

theorem moves_passed {w tail : List Char} {s : Scan text} (h : s.cursor.rest = w ++ tail) :
    Moves s.cursor w (passed w s).cursor ∧ (passed w s).cursor.rest = tail ∧
      (passed w s).diagnostics = s.diagnostics := by
  induction w generalizing s with
  | nil => exact ⟨⟨rfl, rfl⟩, h, rfl⟩
  | cons ch w ih =>
    obtain ⟨hmoves, hrest, hdiagnostics⟩ := ih (s := s.advance) (Cursor.advance_of_cons h).1
    exact ⟨(Moves.advance h).trans hmoves, hrest, hdiagnostics⟩

/-- A symbol that no longer one begins with in front of a space is read whole. -/
theorem lexSymbol_symbol {tail : List Char} (htail : Spaced tail) {start : Cursor text}
    {s : Scan text} : ∀ l ∈ symbols, ∀ ch w, l.2 = ch :: w → s.cursor.rest = w ++ tail →
      s.lexSymbol filename start ch =
        (some (makeToken filename l.1 start (passed w s).cursor), passed w s) := by
  have hne : ∀ c : Char, c ≠ ' ' → (tail.head? = some c) = False := fun c hc =>
    eq_false (htail.head_ne hc)
  simp only [symbols, List.forall_mem_cons, List.not_mem_nil, false_implies, implies_true, and_true]
  and_intros
  all_goals
    intro ch w hl hrest
    have hnext : ∀ ch' w', w = ch' :: w' → s.advance.cursor.rest = w' ++ tail := fun ch' w' hw =>
      (Cursor.advance_of_cons (by rw [hrest, hw]; rfl)).1
    obtain ⟨rfl, rfl⟩ := List.cons.inj hl
    simp [Scan.lexSymbol, Scan.matchFirst, Scan.matchDouble, Scan.accept, hrest, hne, passed]
    all_goals simp [hnext _ _ rfl, hne]

/-- A symbol begins with a character that begins nothing else. -/
theorem symbols_facts : ∀ l ∈ symbols, ∃ ch w, l.2 = ch :: w ∧
    (isDigit ch = false ∧ (isAlpha ch || ch == '_') = false ∧ ch ≠ '"' ∧ ch ≠ '\'') ∧
      (ch = '.' → w = []) ∧ (ch ≠ ' ' ∧ ch ≠ '\t' ∧ ch ≠ '\r' ∧ ch ≠ '\n') ∧
      (ch = '/' → w.head? ≠ some '/' ∧ w.head? ≠ some '*') := by
  simp only [symbols, List.forall_mem_cons, List.not_mem_nil, false_implies, implies_true, and_true]
  and_intros
  all_goals exact ⟨_, _, rfl, by decide⟩

theorem lexesAs_symbol {l : Lexeme} (h : l ∈ symbols) : LexesAs text filename l := by
  intro start s tail ch w hl hstart htail hs
  obtain ⟨ch', w', hl', ⟨hdigit, halpha, hquote, hchar⟩, hdot, -⟩ := symbols_facts l h
  obtain ⟨rfl, rfl⟩ := List.cons.inj (hl.symm.trans hl')
  rw [hl] at hstart
  have hrest : s.cursor.rest = w ++ tail := by
    rw [hs, (Cursor.advance_of_cons hstart).1]
    rfl
  obtain ⟨hmoves, hend, hdiagnostics⟩ := moves_passed hrest
  have hfirst := Moves.advance hstart
  rw [← hs] at hfirst
  refine ⟨passed w s, ?_, hl ▸ hfirst.trans hmoves, hend, hdiagnostics⟩
  have hpoint : (ch == '.' && isDigit s.peek) = false := by
    rw [Bool.and_eq_false_iff]
    by_cases hch : ch = '.'
    · rw [hdot hch, List.nil_append] at hrest
      refine .inr ?_
      rw [Scan.peek, hrest]
      rcases tail with _ | ⟨ch', tail⟩
      · rfl
      · rw [htail ch' rfl]
        rfl
    · exact .inl (beq_eq_false_iff_ne.2 hch)
  rw [Lexer.lexFrom, hdigit, halpha, hpoint]
  simp only [Bool.false_eq_true, if_false, hquote, hchar]
  exact lexSymbol_symbol filename htail l h ch w hl hrest

theorem IsLexeme.lexesAs {l : Lexeme} (h : IsLexeme l) : LexesAs text filename l := by
  cases h with
  | word hch hw => exact lexesAs_word filename hch hw
  | number n => exact lexesAs_number filename n
  | symbol h => exact lexesAs_symbol filename h

/-- A lexeme begins with a character that is neither skipped nor the end of anything. -/
structure Begins (l : Lexeme) (ch : Char) (w : List Char) : Prop where
  lexeme : l.2 = ch :: w
  notSpace : ch ≠ ' ' ∧ ch ≠ '\t' ∧ ch ≠ '\r' ∧ ch ≠ '\n'
  notComment : ch = '/' → w.head? ≠ some '/' ∧ w.head? ≠ some '*'

theorem IsLexeme.begins {l : Lexeme} (h : IsLexeme l) : ∃ ch w, Begins l ch w := by
  cases h with
  | @word ch w hch _ =>
    have hne {c : Char} (hc : (isAlpha c || c == '_') = false) : ch ≠ c := fun he => by
      rw [he, hc] at hch
      cases hch
    exact ⟨ch, w, rfl, ⟨hne rfl, hne rfl, hne rfl, hne rfl⟩, fun he => absurd he (hne rfl)⟩
  | number n =>
    rcases hdecimal : decimal n with _ | ⟨ch, w⟩
    · rw [decimal] at hdecimal
      split at hdecimal
      · cases hdecimal
      · exact absurd hdecimal (by simp)
    · have hch : isDigit ch = true := isDigit_of_mem_decimal (hdecimal ▸ List.mem_cons_self)
      have hne {c : Char} (hc : isDigit c = false) : ch ≠ c := fun he => by
        rw [he, hc] at hch
        cases hch
      exact ⟨ch, w, ⟨rfl, ⟨hne rfl, hne rfl, hne rfl, hne rfl⟩, fun he => absurd he (hne rfl)⟩⟩
  | symbol h =>
    obtain ⟨ch, w, hl, -, -, hspace, hcomment⟩ := symbols_facts l h
    exact ⟨ch, w, hl, hspace, hcomment⟩

/-! ## The turns of the lexer -/

theorem Spaced.flatMap (ls : List Lexeme) : Spaced (ls.flatMap fun l => ' ' :: l.2) := by
  intro ch hch
  cases ls with
  | nil => cases hch
  | cons l ls => exact (Option.some.inj hch).symm

/-- A space is skipped, and nothing of the lexeme behind it. -/
theorem skip_space {l : Lexeme} {ch : Char} {w : List Char} (h : Begins l ch w) {tail : List Char}
    (htail : Spaced tail) {s : Scan text} (hrest : s.cursor.rest = ' ' :: (l.2 ++ tail)) :
    s.skipWhitespaceAndComments filename = (false, s.advance) := by
  have hnext : s.advance.cursor.rest = ch :: (w ++ tail) := by
    show s.cursor.advance.rest = _
    rw [(Cursor.advance_of_cons hrest).1, h.lexeme]
    rfl
  have hsecond {c : Char} (hc : c = '/' ∨ c = '*') : ¬ (ch = '/' ∧ s.advance.peekNext = c) := by
    rintro ⟨hch, hpeek⟩
    obtain ⟨hslash, hstar⟩ := h.notComment hch
    rw [Scan.peekNext, hnext, List.tail_cons] at hpeek
    rcases w with _ | ⟨ch', w⟩
    · rcases tail with _ | ⟨ch', tail⟩
      · rcases hc with rfl | rfl <;> exact absurd hpeek (by decide)
      · rw [List.nil_append, List.headD_cons, htail ch' rfl] at hpeek
        rcases hc with rfl | rfl <;> exact absurd hpeek (by decide)
    · have hpeek : ch' = c := hpeek
      rcases hc with rfl | rfl
      · exact hslash (congrArg some hpeek)
      · exact hstar (congrArg some hpeek)
  obtain ⟨hspace, htab, hreturn, hfeed⟩ := h.notSpace
  rw [Scan.skipWhitespaceAndComments, Scan.skipLoop]
  split
  · rename_i hnil
    rw [hrest] at hnil
    cases hnil
  · rename_i hcons
    obtain ⟨rfl, -⟩ := List.cons.inj (hrest.symm.trans hcons)
    rw [if_pos (.inl rfl), Scan.skipLoop]
    split
    · rename_i hnil
      rw [hnext] at hnil
    · rename_i hcons
      obtain ⟨rfl, -⟩ := List.cons.inj (hnext.symm.trans hcons)
      rw [if_neg (by simp [hspace, htab, hreturn]), if_neg hfeed, dif_neg (hsecond (.inl rfl)),
        if_neg (hsecond (.inr rfl))]

/-- A turn of the lexer on a space and a lexeme. -/
theorem turn_lexeme {lexeme : Lexeme} (h : IsLexeme lexeme) (heof : lexeme.1 ≠ .eof)
    (hasm : lexeme.1 ≠ .kwAsm) {tail : List Char} (htail : Spaced tail) {l : Lexer text}
    (hrest : l.cursor.rest = ' ' :: (lexeme.2 ++ tail))
    (hawaiting : l.awaitingAsmExprBody = false) :
    ∃ t l', l.turn filename = ⟨[t], false, l'⟩ ∧ t.toLexeme = lexeme ∧
      t.location.offset = l.cursor.pos + 1 ∧ l'.cursor.rest = tail ∧
      l.cursor.pos + 1 ≤ l'.cursor.pos ∧ l'.awaitingAsmExprBody = false ∧
      l'.diagnostics = l.diagnostics := by
  obtain ⟨ch, w, hbegins⟩ := h.begins
  have hskip := skip_space filename hbegins htail hrest
  obtain ⟨hnext, hpos⟩ := Cursor.advance_of_cons hrest
  obtain ⟨s', hlex, hmoves, hend, hdiagnostics⟩ := h.lexesAs filename l.cursor.advance
    l.toScan.advance.advance tail ch w hbegins.lexeme hnext htail rfl
  have hcons : l.toScan.advance.cursor.rest = ch :: (w ++ tail) := by
    show l.cursor.advance.rest = _
    rw [hnext, hbegins.lexeme]
    rfl
  have htoken : (makeToken filename lexeme.1 l.cursor.advance s'.cursor).toLexeme = lexeme :=
    Prod.ext rfl hmoves.slice
  have hread : l.lexToken filename =
      (some (makeToken filename lexeme.1 l.cursor.advance s'.cursor),
        { l with toScan := s' }.remember filename lexeme.1) := by
    rw [Lexer.lexToken, hskip]
    simp only [Bool.false_and, Bool.false_eq_true, if_false]
    split
    · rename_i hnil
      rw [hcons] at hnil
      cases hnil
    · rename_i hcons'
      obtain ⟨rfl, -⟩ := List.cons.inj (hcons.symm.trans hcons')
      rw [show l.toScan.advance.cursor = l.cursor.advance from rfl, hlex]
      rfl
  refine ⟨_, { l with toScan := s' }.remember filename lexeme.1, ?_, htoken, hpos, hend, ?_,
    hawaiting, hdiagnostics⟩
  · have hretry : l.retryAsmBlock filename = (none, l) := by
      rw [Lexer.retryAsmBlock, hawaiting]
      rfl
    have hkind : (makeToken filename lexeme.1 l.cursor.advance s'.cursor).kind = lexeme.1 := rfl
    rw [Lexer.turn, hretry]
    simp only [hread, hkind, if_neg heof, if_neg hasm]
  · have := hmoves.pos
    show l.cursor.pos + 1 ≤ s'.cursor.pos
    omega

/-- The lexemes that the loop of the lexer hands on as they are. -/
structure Ordinary (lexeme : Lexeme) : Prop where
  isLexeme : IsLexeme lexeme
  notEof : lexeme.1 ≠ .eof
  notAsm : lexeme.1 ≠ .kwAsm

/-- The last turn of the lexer. -/
theorem turn_end {l : Lexer text} (hrest : l.cursor.rest = [])
    (hawaiting : l.awaitingAsmExprBody = false) :
    ∃ u us l', l.turn filename = ⟨u :: us, true, l'⟩ ∧ (u.kind = .semicolon ∨ u.kind = .eof) ∧
      l'.diagnostics = l.diagnostics := by
  have hretry : l.retryAsmBlock filename = (none, l) := by
    rw [Lexer.retryAsmBlock, hawaiting]
    rfl
  have hskip : l.toScan.skipWhitespaceAndComments filename = (false, l.toScan) := by
    rw [Scan.skipWhitespaceAndComments, Scan.skipLoop]
    split
    · rfl
    · rename_i hcons
      rw [hrest] at hcons
      cases hcons
  have hread : l.lexToken filename = (some (makeEof filename l.cursor), l) := by
    rw [Lexer.lexToken, hskip]
    simp only [Bool.false_and, Bool.false_eq_true, if_false]
    split
    · rfl
    · rename_i hcons
      rw [hrest] at hcons
      cases hcons
  have hkind : (makeEof filename l.cursor).kind = .eof := rfl
  rw [Lexer.turn, hretry]
  simp only [hread, hkind, if_true]
  split
  · exact ⟨_, _, _, rfl, .inl rfl, rfl⟩
  · exact ⟨_, _, _, rfl, .inr rfl, rfl⟩

/-- The loop of the lexer gives the lexemes of its text, in their order, and reports nothing. -/
theorem tokenizeLoop_lexemes {lexemes : List Lexeme} (h : ∀ lexeme ∈ lexemes, Ordinary lexeme)
    {l : Lexer text} (hrest : l.cursor.rest = lexemes.flatMap fun lexeme => ' ' :: lexeme.2)
    (hawaiting : l.awaitingAsmExprBody = false) (tokens : List Token) :
    ∃ toks u us, l.tokenizeLoop filename tokens = (tokens ++ (toks ++ u :: us), l.diagnostics) ∧
      toks.map Token.toLexeme = lexemes ∧
      toks.Pairwise (fun t u => t.location.offset < u.location.offset) ∧
      (∀ t ∈ toks, l.cursor.pos < t.location.offset) ∧ (u.kind = .semicolon ∨ u.kind = .eof) := by
  induction lexemes generalizing l tokens with
  | nil =>
    obtain ⟨u, us, l', hturn, hkind, hdiagnostics⟩ := turn_end filename hrest hawaiting
    refine ⟨[], u, us, ?_, rfl, .nil, nofun, hkind⟩
    rw [Lexer.tokenizeLoop]
    simp [hturn, hdiagnostics]
  | cons lexeme lexemes ih =>
    obtain ⟨hlexeme, hlexemes⟩ := List.forall_mem_cons.1 h
    obtain ⟨t, l', hturn, ht, hoffset, hend, hpos, hawaiting', hdiagnostics⟩ :=
      turn_lexeme filename hlexeme.isLexeme hlexeme.notEof hlexeme.notAsm (Spaced.flatMap lexemes)
        hrest hawaiting
    obtain ⟨toks, u, us, hloop, htoks, hpairwise, hbehind, hkind⟩ :=
      ih hlexemes hend hawaiting' (tokens ++ [t])
    refine ⟨t :: toks, u, us, ?_, by rw [List.map_cons, ht, htoks],
      .cons (fun t' ht' => ?_) hpairwise, ?_, hkind⟩
    · rw [Lexer.tokenizeLoop]
      simp [hturn, hloop, hdiagnostics]
    · have := hbehind t' ht'
      omega
    · refine List.forall_mem_cons.2 ⟨by omega, fun t' ht' => ?_⟩
      have := hbehind t' ht'
      omega

end Lexemes

/-! ## The lexemes of an expression -/

theorem ordinary_of_mem_symbols {lexeme : Lexeme} (h : lexeme ∈ symbols) : Ordinary lexeme := by
  have hall : ∀ lexeme ∈ symbols, lexeme.1 ≠ .eof ∧ lexeme.1 ≠ .kwAsm := by decide
  obtain ⟨heof, hasm⟩ := hall lexeme h
  exact ⟨.symbol h, heof, hasm⟩

theorem ordinary_keyword {kind : TokenKind} {ch : Char} {w : List Char}
    (hch : (isAlpha ch || ch == '_') = true)
    (hw : (w.all fun ch' => isAlphaNumeric ch' || ch' == '_') = true)
    (hkind : keywords.lookup (String.ofList (ch :: w)) = some kind) (heof : kind ≠ .eof)
    (hasm : kind ≠ .kwAsm) : Ordinary (kind, ch :: w) := by
  have hlexeme := IsLexeme.word hch (List.all_eq_true.1 hw)
  rw [hkind] at hlexeme
  exact ⟨hlexeme, heof, hasm⟩

theorem ordinary_name {name : List Char} (h : IsIdentifier name) :
    Ordinary (.identifier, name) := by
  obtain ⟨⟨ch, w, rfl, hch, hw⟩, hlookup⟩ := h
  have hlexeme := IsLexeme.word hch hw
  rw [hlookup] at hlexeme
  exact ⟨hlexeme, nofun, nofun⟩

theorem ordinary_number (n : Nat) : Ordinary (.intLiteral, decimal n) := ⟨.number n, nofun, nofun⟩

theorem ordinary_literalBool (value : Bool) :
    ∀ lexeme ∈ (Expr.literalBool value).body, Ordinary lexeme := by
  cases value
  · exact List.forall_mem_singleton.2
      (ordinary_keyword (by decide) (by decide) (by decide) nofun nofun)
  · exact List.forall_mem_singleton.2
      (ordinary_keyword (by decide) (by decide) (by decide) nofun nofun)

theorem ordinary_binaryLexeme (op : BinaryOp) : Ordinary (binaryLexeme op) := by
  by_cases hop : op = .in
  · subst hop
    exact ordinary_keyword (by decide) (by decide) (by decide) nofun nofun
  · refine ordinary_of_mem_symbols ?_
    cases op <;> first | exact absurd rfl hop | decide

theorem ordinary_bracketed {needed : Prop} [Decidable needed] {ls : List Lexeme}
    (h : ∀ lexeme ∈ ls, Ordinary lexeme) : ∀ lexeme ∈ bracketed needed ls, Ordinary lexeme := by
  rw [bracketed]
  split
  · intro lexeme hmem
    simp only [List.cons_append, List.mem_cons, List.mem_append, List.not_mem_nil, or_false] at hmem
    rcases hmem with rfl | hmem | rfl
    · exact ordinary_of_mem_symbols (by decide)
    · exact h lexeme hmem
    · exact ordinary_of_mem_symbols (by decide)
  · exact h

theorem ordinary_bodies {es : List Expr} (h : ∀ e ∈ es, ∀ lexeme ∈ e.body, Ordinary lexeme) :
    ∀ lexeme ∈ bodies es, Ordinary lexeme := by
  induction es with
  | nil => exact nofun
  | cons e es ih =>
    obtain ⟨he, hes⟩ := List.forall_mem_cons.1 h
    cases es with
    | nil => exact he
    | cons e' es' =>
      exact List.forall_mem_append.2
        ⟨he, List.forall_mem_cons.2 ⟨ordinary_of_mem_symbols (by decide), ih hes⟩⟩

theorem ordinary_between {left right : Lexeme} (hleft : left ∈ symbols) (hright : right ∈ symbols)
    {ls : List Lexeme} (h : ∀ lexeme ∈ ls, Ordinary lexeme) :
    ∀ lexeme ∈ left :: ls ++ [right], Ordinary lexeme :=
  List.forall_mem_append.2 ⟨List.forall_mem_cons.2 ⟨ordinary_of_mem_symbols hleft, h⟩,
    List.forall_mem_singleton.2 (ordinary_of_mem_symbols hright)⟩

/-- What is printed of an expression consists of lexemes. -/
theorem ordinary_body {e : Expr} (h : e.Plain) : ∀ lexeme ∈ e.body, Ordinary lexeme := by
  induction h with
  | literalInteger value => exact List.forall_mem_singleton.2 (ordinary_number _)
  | literalBool value => exact ordinary_literalBool value
  | ident hname => exact List.forall_mem_singleton.2 (ordinary_name hname)
  | @unary op operand _ ih =>
    by_cases hop : op = .deref
    · subst hop
      refine List.forall_mem_append.2 ⟨ordinary_bracketed ih, ?_⟩
      exact fun lexeme hmem => ordinary_of_mem_symbols (by revert lexeme; decide)
    · have hbody : (Expr.unary op operand).body =
          prefixLexeme op :: bracketed (operand.level < 14) operand.body := by
        cases op <;> first | exact absurd rfl hop | rfl
      rw [hbody]
      exact List.forall_mem_cons.2
        ⟨ordinary_of_mem_symbols (by cases op <;> decide), ordinary_bracketed ih⟩
  | incrDecr isIncrement isPrefix _ ih =>
    have hsymbol : Ordinary (incrDecrLexeme isIncrement) :=
      ordinary_of_mem_symbols (by cases isIncrement <;> decide)
    cases isPrefix
    · exact List.forall_mem_append.2 ⟨ordinary_bracketed ih, List.forall_mem_singleton.2 hsymbol⟩
    · exact List.forall_mem_cons.2 ⟨hsymbol, ordinary_bracketed ih⟩
  | tryExpr _ ih =>
    exact List.forall_mem_cons.2
      ⟨ordinary_keyword (by decide) (by decide) (by decide) nofun nofun, ordinary_bracketed ih⟩
  | binary op _ _ ihl ihr =>
    exact List.forall_mem_append.2 ⟨ordinary_bracketed ihl,
      List.forall_mem_cons.2 ⟨ordinary_binaryLexeme op, ordinary_bracketed ihr⟩⟩
  | ternary _ _ _ ihc iht ihe =>
    refine List.forall_mem_append.2 ⟨List.forall_mem_append.2 ⟨ordinary_bracketed ihc, ?_⟩, ?_⟩
    · exact List.forall_mem_cons.2 ⟨ordinary_of_mem_symbols (by decide), iht⟩
    · exact List.forall_mem_cons.2 ⟨ordinary_of_mem_symbols (by decide), ihe⟩
  | whenExpr _ _ _ ihc iht ihe =>
    refine List.forall_mem_append.2 ⟨List.forall_mem_append.2 ⟨ordinary_bracketed iht, ?_⟩, ?_⟩
    · exact List.forall_mem_cons.2
        ⟨ordinary_keyword (by decide) (by decide) (by decide) nofun nofun, ordinary_bracketed ihc⟩
    · exact List.forall_mem_cons.2
        ⟨ordinary_keyword (by decide) (by decide) (by decide) nofun nofun, ihe⟩
  | assign op _ _ iht ihv =>
    exact List.forall_mem_append.2 ⟨ordinary_bracketed iht, List.forall_mem_cons.2
      ⟨ordinary_of_mem_symbols (by cases op <;> decide), ihv⟩⟩
  | call _ _ ihc iha =>
    rw [Expr.body, List.append_assoc]
    exact List.forall_mem_append.2 ⟨ordinary_bracketed ihc,
      ordinary_between (by decide) (by decide) (ordinary_bodies iha)⟩
  | index _ _ _ iho iha =>
    rw [Expr.body, List.append_assoc]
    exact List.forall_mem_append.2 ⟨ordinary_bracketed iho,
      ordinary_between (by decide) (by decide) (ordinary_bodies iha)⟩
  | member _ hname ih =>
    exact List.forall_mem_append.2 ⟨ordinary_bracketed ih, List.forall_mem_cons.2
      ⟨ordinary_of_mem_symbols (by decide), List.forall_mem_singleton.2 (ordinary_name hname)⟩⟩

/-- The parser reads an expression back from its text, and nothing is reported. -/
theorem parseExpr_tokenize (o : Others) {e : Expr} (h : e.Plain) (filename : String)
    (d : DiagnosticEngine) :
    (tokenize e.text filename d).2 = d ∧
      ∃ rest, parseExpr o (tokenize e.text filename d).1 d = some (e, ⟨rest, d⟩) := by
  obtain ⟨toks, u, us, hloop, hlexemes, hpairwise, -, hkind⟩ :=
    tokenizeLoop_lexemes filename (ordinary_body h) (l := Lexer.init e.text d) rfl rfl []
  rw [List.nil_append] at hloop
  have htokenize : tokenize e.text filename d = (toks ++ u :: us, d) := hloop
  have hreach : reach u.kind = 0 := by rcases hkind with hkind | hkind <;> rw [hkind] <;> rfl
  rw [htokenize]
  refine ⟨rfl, u :: us, (readBack h).readable.expr d ⟨hlexemes, ?_, Nat.le_refl _⟩ hreach⟩
  exact hpairwise.imp fun hlt => Nat.ne_of_lt hlt

theorem parseExpr_tokenize_assign :
    let e : Expr := .assign .addAssign (.member (.ident ['x']) ['a'])
      (.binary .mul (.binary .add (.ident ['a']) (.ident ['b']))
        (.call (.ident ['f']) [.unary .negate (.ident ['x'])]))
    e.text = " x . a += ( a + b ) * f ( - x )".toList ∧
      ∃ rest, parseExpr ⟨outOfFuel, outOfFuel, outOfFuel, fun _ _ => outOfFuel⟩
        (tokenize e.text "a.mir" {}).1 {} = some (e, ⟨rest, {}⟩) := by
  have ha : IsIdentifier ['a'] := isIdentifier_letter (by decide) (by decide)
  have hb : IsIdentifier ['b'] := isIdentifier_letter (by decide) (by decide)
  have hf : IsIdentifier ['f'] := isIdentifier_letter (by decide) (by decide)
  have hx : IsIdentifier ['x'] := isIdentifier_letter (by decide) (by decide)
  refine ⟨by decide, (parseExpr_tokenize _ ?_ "a.mir" {}).2⟩
  exact .assign _ (.member (.ident hx) ha) (.binary _ (.binary _ (.ident ha) (.ident hb))
    (.call (.ident hf) (List.forall_mem_singleton.2 (.unary _ (.ident hx)))))

end Syntax

end Mirage
