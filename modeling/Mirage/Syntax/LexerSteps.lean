import Mirage.Syntax.Lexer

/-!
# What the parts of the lexer do

Each sub-lexer moves the cursor forward and reports what it does not like. Most of these reports
are remarks about bytes that end up in a token all the same. The two that are not, about an
unexpected byte and about a block of assembler that never ends, *mark* their bytes: nothing else
accounts for these.

* `Scan.Passes`: the cursor goes forward, and nothing is marked;
* `Scan.Lexed`: moreover a token was read, from its first byte up to the cursor;
* `tokenize`: every turn of the loop but the last makes progress (`Lexer.turn_lt`), so the
  loop ends.
-/

namespace Mirage.Syntax

/-- The messages of the reports that mark their bytes. -/
def Marks (message : String) : Prop :=
  message = "unterminated asm block" ∨ ∃ ch, message = unexpectedCharacter ch

theorem length_quoted {before after : String} {m n : Nat} (hbefore : before.length = m)
    (hafter : after.length = n) (ch : Char) :
    (before ++ String.singleton ch ++ after).length = m + 1 + n := by
  rw [String.length_append, String.length_append, String.length_singleton, hbefore, hafter]

/-- The marks are known by their length. -/
theorem not_marks_of_length {message : String} (h : message.length ∉ [22, 24]) :
    ¬ Marks message := by
  rintro (rfl | ⟨ch, rfl⟩)
  · exact h (by decide)
  · have hlen : (unexpectedCharacter ch).length = 22 + 1 + 1 :=
      length_quoted (by decide) (by decide) ch
    rw [hlen] at h
    exact h (by decide)

/-- The kinds of the tokens that the sub-lexers read. -/
def TokenKind.isPlain (kind : TokenKind) : Bool := kind ≠ .asmBlock && kind ≠ .eof

namespace Scan

variable {text : List Char}

/-- From one place to a later one, without a mark. -/
structure Passes (s s' : Scan text) : Prop where
  pos_le : s.cursor.pos ≤ s'.cursor.pos
  kept : ∀ d ∈ s.diagnostics.diagnostics, d ∈ s'.diagnostics.diagnostics
  full : s.diagnostics.hasReachedMaxErrors = true → s'.diagnostics.hasReachedMaxErrors = true
  remark : ∀ d ∈ s'.diagnostics.diagnostics, d ∈ s.diagnostics.diagnostics ∨ ¬ Marks d.message

namespace Passes

theorem refl (s : Scan text) : Passes s s := ⟨Nat.le_refl _, fun _ => id, id, fun _ => .inl⟩

theorem trans {s₁ s₂ s₃ : Scan text} (h : Passes s₁ s₂) (h' : Passes s₂ s₃) : Passes s₁ s₃ where
  pos_le := Nat.le_trans h.pos_le h'.pos_le
  kept d hd := h'.kept d (h.kept d hd)
  full := h'.full ∘ h.full
  remark d hd := by
    rcases h'.remark d hd with hd | hd
    · exact h.remark d hd
    · exact .inr hd

/-- The cursor moves, and that is all. -/
theorem move {s : Scan text} {c : Cursor text} (h : s.cursor.pos ≤ c.pos) :
    Passes s { s with cursor := c } :=
  ⟨h, fun _ => id, id, fun _ => .inl⟩

theorem advance (s : Scan text) : Passes s s.advance := move s.cursor.pos_le_advance

theorem advanceWhile (p : Char → Bool) (s : Scan text) : Passes s (s.advanceWhile p) :=
  move (s.cursor.pos_le_advanceWhile p)

theorem advanceAtMost (n : Nat) (p : Char → Bool) (s : Scan text) :
    Passes s (s.advanceAtMost n p) :=
  move (s.cursor.pos_le_advanceAtMost p n)

theorem accept (expected : Char) (s : Scan text) : Passes s (s.accept expected).2 := by
  rw [Scan.accept]
  split_ifs
  · exact advance s
  · exact refl s

theorem skipDigits (s : Scan text) : Passes s s.skipDigits := advanceWhile _ s

theorem reportError (location : SourceLocation) {message : String} (h : ¬ Marks message)
    (s : Scan text) : Passes s (s.reportError location message) where
  pos_le := Nat.le_refl _
  kept _ hd := DiagnosticEngine.mem_report hd _ _ _ _
  full h := DiagnosticEngine.hasReachedMaxErrors_report h _ _ _ _
  remark d hd := by
    rcases DiagnosticEngine.of_mem_report hd with hd | rfl
    · exact .inl hd
    · exact .inr h

/-- On one of two ways. -/
theorem ite {s s₁ s₂ : Scan text} {p : Prop} [Decidable p] (h₁ : Passes s s₁)
    (h₂ : Passes s s₂) : Passes s (if p then s₁ else s₂) := by
  split_ifs
  · exact h₁
  · exact h₂

end Passes

variable (filename : String)

/-- A token was read: it is from its first byte up to the cursor. -/
structure Lexed (start : Cursor text) (s : Scan text) (result : Token × Scan text) : Prop where
  passes : Passes s result.2
  token : ∃ kind, kind.isPlain = true ∧ result.1 = makeToken filename kind start result.2.cursor

variable {filename} {start : Cursor text}

/-- To read a token, first pass some bytes. -/
theorem Lexed.after {s s' : Scan text} {result : Token × Scan text} (h : Passes s s')
    (h' : Lexed filename start s' result) : Lexed filename start s result :=
  ⟨h.trans h'.passes, h'.token⟩

/-- The token ends here. -/
theorem Lexed.make {kind : TokenKind} (hkind : kind.isPlain = true) {s s' : Scan text}
    (h : Passes s s') : Lexed filename start s (makeToken filename kind start s'.cursor, s') :=
  ⟨h, kind, hkind, rfl⟩

/-- The token ends here, and there is a remark about it. -/
theorem Lexed.remark {kind : TokenKind} (hkind : kind.isPlain = true) {message : String}
    (hmessage : message.length ∉ [22, 24]) (location : SourceLocation) {s s' : Scan text}
    (h : Passes s s') :
    Lexed filename start s
      (makeToken filename kind start s'.cursor, s'.reportError location message) :=
  ⟨h.trans (.reportError location (not_marks_of_length hmessage) s'), kind, hkind, rfl⟩

/-! ## Numbers and words -/

theorem passes_lexExponent (s : Scan text) : Passes s (s.lexExponent filename).2 := by
  rw [lexExponent]
  split
  · have hsign : Passes s (if s.advance.cursor.rest.head? = some '+' ∨
        s.advance.cursor.rest.head? = some '-' then s.advance.advance else s.advance) :=
      (Passes.advance s).trans (.ite (.advance _) (.refl _))
    have hdigits := hsign.trans (.skipDigits _)
    dsimp only
    rw [apply_ite Prod.snd]
    refine .ite (hdigits.trans ?_) hdigits
    exact .reportError _ (not_marks_of_length (by decide)) _
  · exact .refl s

theorem lexed_lexPrefixedNumber (isBaseDigit : Char → Bool) (s : Scan text) :
    Lexed filename start s (s.lexPrefixedNumber filename isBaseDigit start) := by
  have hdigits := (Passes.advance s).trans
    (.advanceWhile (fun ch => isBaseDigit ch || ch == '_') _)
  refine .make rfl (hdigits.trans (.ite (.refl _) ?_))
  exact .reportError _ (not_marks_of_length (by decide)) _

theorem lexed_lexDecimalNumber (s : Scan text) :
    Lexed filename start s (s.lexDecimalNumber filename start) := by
  refine .make (by split_ifs <;> rfl) (((Passes.skipDigits s).trans ?_).trans
    (passes_lexExponent _))
  exact .ite ((Passes.advance _).trans (.skipDigits _)) (.refl _)

theorem lexed_lexNumber (s : Scan text) : Lexed filename start s (s.lexNumber filename start) := by
  rw [lexNumber]
  split
  · split
    · exact lexed_lexPrefixedNumber _ s
    · exact lexed_lexPrefixedNumber _ s
    · exact lexed_lexPrefixedNumber _ s
    · exact lexed_lexPrefixedNumber _ s
    · exact lexed_lexPrefixedNumber _ s
    · exact lexed_lexPrefixedNumber _ s
    · exact lexed_lexDecimalNumber s
  · exact lexed_lexDecimalNumber s

theorem lexed_lexFractionalNumber (s : Scan text) :
    Lexed filename start s (s.lexFractionalNumber filename start) :=
  .make rfl ((Passes.skipDigits s).trans (passes_lexExponent _))

end Scan

theorem isPlain_of_keyword : ∀ entry ∈ keywords, entry.2.isPlain = true := by decide

namespace Scan

variable {text : List Char} {filename : String} {start : Cursor text}

theorem lexed_lexIdentifierOrKeyword (s : Scan text) :
    Lexed filename start s (s.lexIdentifierOrKeyword filename start) := by
  rw [lexIdentifierOrKeyword]
  split
  · rename_i kind hkind
    obtain ⟨before, after, hsplit, -⟩ := List.lookup_eq_some_iff.mp hkind
    have hmem : (_, kind) ∈ keywords := hsplit ▸ List.mem_append_right _ List.mem_cons_self
    exact .make (isPlain_of_keyword _ hmem) (.advanceWhile _ s)
  · exact .make rfl (.advanceWhile _ s)

/-! ## Literals in quotes -/

end Scan

theorem pos_le_stringBody {text : List Char} (c : Cursor text) : c.pos ≤ (stringBody c).pos := by
  fun_induction stringBody c with
  | case1 => exact Nat.le_refl _
  | case2 => exact Nat.le_refl _
  | case3 c => exact c.pos_le_advance
  | case4 c => exact c.pos_le_advance
  | case5 c _ _ _ _ _ _ _ ih =>
    exact Nat.le_trans (Nat.le_trans c.pos_le_advance c.advance.pos_le_advance) ih
  | case6 c _ _ _ _ _ ih => exact Nat.le_trans c.pos_le_advance ih

namespace Scan

variable {text : List Char} {filename : String} {start : Cursor text}

theorem lexed_lexString (s : Scan text) : Lexed filename start s (s.lexString filename start) := by
  have hbody : Passes s { s with cursor := stringBody s.cursor } := .move (pos_le_stringBody _)
  rw [lexString]
  dsimp only
  split_ifs
  · exact .remark rfl (by decide) _ hbody
  · exact .make rfl (hbody.trans (.advance _))

theorem passes_charEscape (s : Scan text) : Passes s s.charEscape := by
  refine (Passes.advance s).trans ?_
  refine .ite (.refl _) (.ite ?_ (.ite ?_ (.advance _)))
  · exact (Passes.advance _).trans (.advanceAtMost _ _ _)
  · exact (Passes.advance _).trans (.advanceAtMost _ _ _)

theorem lexed_closeChar (s : Scan text) : Lexed filename start s (s.closeChar filename start) := by
  rw [closeChar]
  split_ifs
  · exact .make rfl (.advance s)
  · exact .remark rfl (by decide) _ (.refl s)

theorem lexed_multiByteChar (s : Scan text) :
    Lexed filename start s (s.multiByteChar filename start) := by
  refine .remark rfl (by decide) _ (((Passes.advance s).trans ?_).trans (.accept _ _))
  exact .advanceWhile _ _

theorem lexed_lexChar (s : Scan text) : Lexed filename start s (s.lexChar filename start) := by
  rw [lexChar]
  split_ifs
  · refine .make rfl (.trans ?_ (.advance _))
    exact .reportError _ (not_marks_of_length (by decide)) s
  · exact .remark rfl (by decide) _ (.refl s)
  · exact .after (passes_charEscape s) (lexed_closeChar _)
  · exact lexed_multiByteChar s
  · exact .after (.advance s) (lexed_closeChar _)

/-! ## Symbols -/

theorem lexed_matchDouble (expected : Char) {double single : TokenKind}
    (hdouble : double.isPlain = true) (hsingle : single.isPlain = true) (s : Scan text) :
    Lexed filename start s (s.matchDouble filename start expected double single) := by
  refine .make ?_ (.accept expected s)
  split_ifs
  · exact hdouble
  · exact hsingle

theorem lexed_matchFirst {single : TokenKind} (hsingle : single.isPlain = true)
    {others : List (Char × TokenKind)} (hothers : ∀ other ∈ others, other.2.isPlain = true)
    (s : Scan text) : Lexed filename start s (s.matchFirst filename start single others) := by
  induction others with
  | nil => exact .make hsingle (.refl s)
  | cons other others ih =>
    rw [matchFirst]
    split_ifs
    · exact .make (hothers other List.mem_cons_self) (.accept _ s)
    · exact ih fun o ho => hothers o (List.mem_cons_of_mem _ ho)

variable (filename start)

/-- What comes of a first byte: a token, or the report that the byte is unexpected. -/
def LexedFrom (ch : Char) (s : Scan text) (result : Option Token × Scan text) : Prop :=
  (∃ token, result.1 = some token ∧ Lexed filename start s (token, result.2)) ∨
    result = (none,
      s.reportError { makeLocation filename start with length := 1 } (unexpectedCharacter ch))

variable {filename start}

theorem LexedFrom.of_lexed {ch : Char} {s : Scan text} {result : Token × Scan text}
    (h : Lexed filename start s result) :
    LexedFrom filename start ch s (some result.1, result.2) :=
  .inl ⟨_, rfl, h⟩

theorem lexedFrom_lexSymbol (ch : Char) (s : Scan text) :
    LexedFrom filename start ch s (s.lexSymbol filename start ch) := by
  have hsingle (kind : TokenKind) (hkind : kind.isPlain = true) :
      LexedFrom filename start ch s (some (makeToken filename kind start s.cursor), s) :=
    .of_lexed (.make hkind (.refl s))
  unfold lexSymbol
  split
  -- no symbol starts with the byte
  case h_28 => exact .inr rfl
  -- one, two or three full stops
  case h_14 =>
    dsimp only
    split_ifs
    · exact .of_lexed (.after (.accept _ s) (lexed_matchDouble _ rfl rfl _))
    · exact hsingle _ rfl
  all_goals first
    | exact hsingle _ rfl
    | exact .of_lexed (lexed_matchDouble _ rfl rfl s)
    | exact .of_lexed (lexed_matchFirst rfl (by decide) s)
    | dsimp only
      split_ifs
      · exact .of_lexed (.after (.accept _ s) (lexed_matchDouble _ rfl rfl _))
      · exact .of_lexed (lexed_matchDouble _ rfl rfl s)

/-! ## Whitespace, comments and blocks of assembler -/

variable (filename) in
theorem passes_skipBlockComment (crossedNewline : Bool) (s : Scan text) :
    Passes s (s.skipBlockComment filename crossedNewline).2 := by
  have hbody : Passes s
      { s with cursor := (blockCommentBody crossedNewline s.cursor.advance.advance).2 } :=
    .move (Nat.le_trans (Nat.le_trans s.cursor.pos_le_advance s.cursor.advance.pos_le_advance)
      (pos_le_blockCommentBody _ _))
  rw [skipBlockComment]
  dsimp only
  split_ifs
  · exact hbody.trans (.reportError _ (not_marks_of_length (by decide)) _)
  · exact hbody.trans ((Passes.advance _).trans (.advance _))

theorem passes_skipLoop (crossedNewline : Bool) (s : Scan text) :
    Passes s (s.skipLoop filename crossedNewline).2 := by
  fun_induction skipLoop filename crossedNewline s with
  | case1 => exact .refl _
  | case2 _ s _ _ _ _ ih => exact (Passes.advance s).trans ih
  | case3 _ s _ _ _ ih => exact (Passes.advance s).trans ih
  | case4 _ s _ _ _ _ _ _ ih => exact (Passes.advanceWhile _ s).trans ih
  | case5 c s _ _ _ _ _ _ _ _ ih => exact (passes_skipBlockComment filename c s).trans ih
  | case6 => exact .refl _

theorem passes_skipWhitespaceAndComments (s : Scan text) :
    Passes s (s.skipWhitespaceAndComments filename).2 :=
  passes_skipLoop false s

end Scan

theorem pos_le_asmBody {text : List Char} (depth : Nat) (c : Cursor text) :
    c.pos ≤ (asmBody depth c).2.pos := by
  fun_induction asmBody depth c with
  | case1 => exact Nat.le_refl _
  | case2 _ c _ _ ih => exact Nat.le_trans c.pos_le_advance ih
  | case3 => exact Nat.le_refl _
  | case4 _ c _ _ _ _ ih => exact Nat.le_trans c.pos_le_advance ih
  | case5 _ c _ _ _ _ _ ih => exact Nat.le_trans c.pos_le_advance ih

/-- The body of a block ends before a closing brace, or not at all. -/
theorem rest_asmBody {text : List Char} {depth : Nat} (hdepth : 0 < depth) (c : Cursor text) :
    (0 < (asmBody depth c).1 ∧ (asmBody depth c).2.rest = []) ∨
      ((asmBody depth c).1 = 0 ∧ ∃ rest, (asmBody depth c).2.rest = '}' :: rest) := by
  fun_induction asmBody depth c with
  | case1 _ _ h => exact .inl ⟨hdepth, h⟩
  | case2 depth _ _ _ ih => exact ih (Nat.succ_pos depth)
  | case3 _ _ rest => exact .inr ⟨rfl, rest, ‹_›⟩
  | case4 _ _ _ _ _ _ ih => exact ih (by omega)
  | case5 _ _ _ _ _ _ _ ih => exact ih hdepth

namespace Scan

variable {text : List Char} {filename : String}

variable (filename) in
/-- What comes of the search for a block of assembler. -/
inductive LexesAsm (s : Scan text) : Option Token × Scan text → Prop
  | none : LexesAsm s (none, (s.skipWhitespaceAndComments filename).2)
  | unterminated {open' close : Cursor text} (hopen : open' =
        (s.skipWhitespaceAndComments filename).2.cursor) (hle : open'.pos < close.pos)
      (hend : close.rest = []) :
      LexesAsm s (none, Scan.reportError (makeRange filename open' close) "unterminated asm block"
        { (s.skipWhitespaceAndComments filename).2 with cursor := close })
  | block {open' close : Cursor text} {rest : List Char} (hopen : open' =
        (s.skipWhitespaceAndComments filename).2.cursor) (hle : open'.pos < close.pos)
      (hclose : close.rest = '}' :: rest) :
      LexesAsm s (some ⟨.asmBlock, Cursor.slice text (open'.pos + 1) close.pos,
        makeRange filename open' close⟩,
        { (s.skipWhitespaceAndComments filename).2 with cursor := close.advance })

variable (filename) in
theorem lexesAsm (s : Scan text) : LexesAsm filename s (s.lexAsmBlock filename) := by
  rw [lexAsmBlock]
  dsimp only
  split
  · rename_i hhead
    obtain ⟨rest, hrest⟩ := List.head?_eq_some_iff.mp hhead
    have hle := pos_le_asmBody 1 (s.skipWhitespaceAndComments filename).2.cursor.advance
    rw [(Cursor.advance_of_cons hrest).2] at hle
    rcases rest_asmBody Nat.one_pos (s.skipWhitespaceAndComments filename).2.cursor.advance
      with ⟨hpos, hend⟩ | ⟨hzero, rest', hclose⟩
    · rw [if_pos hpos]
      exact .unterminated rfl hle hend
    · rw [if_neg (by omega)]
      exact .block rfl hle hclose
  · exact .none

end Scan

/-! ## One token -/

namespace Lexer

variable {text : List Char} {filename : String}

variable (filename) in
theorem lexedFrom (start : Cursor text) (ch : Char) (s : Scan text) :
    Scan.LexedFrom filename start ch s (lexFrom filename start ch s) := by
  rw [lexFrom]
  dsimp only
  split_ifs
  · exact .of_lexed (Scan.lexed_lexNumber s)
  · exact .of_lexed (Scan.lexed_lexIdentifierOrKeyword s)
  · exact .of_lexed (Scan.lexed_lexFractionalNumber s)
  · exact .of_lexed (Scan.lexed_lexString s)
  · exact .of_lexed (Scan.lexed_lexChar s)
  · exact Scan.lexedFrom_lexSymbol ch s

variable (filename) in
/-- What comes of the search for the next token, once whitespace and comments are skipped. -/
inductive LexesToken (l : Lexer text) (skipped : Scan text) : Option Token × Lexer text → Prop
  | virtual (htrigger : l.lastTokenIsAsiTrigger = true) :
    LexesToken l skipped (some l.virtualSemicolon,
      { l with
        toScan := skipped
        lastRealKind := some .semicolon
        lastTokenIsAsiTrigger := false })
  | eof (hend : skipped.cursor.rest = []) :
    LexesToken l skipped (some (makeEof filename skipped.cursor), { l with toScan := skipped })
  | unexpected {ch : Char} {rest : List Char} (hrest : skipped.cursor.rest = ch :: rest) :
    LexesToken l skipped (none,
      { l with
        toScan := skipped.advance.reportError
          { makeLocation filename skipped.cursor with length := 1 } (unexpectedCharacter ch) })
  | token {ch : Char} {rest : List Char} {token : Token} {s : Scan text}
      (hrest : skipped.cursor.rest = ch :: rest)
      (hlexed : Scan.Lexed filename skipped.cursor skipped.advance (token, s)) :
    LexesToken l skipped
      (some token, { l with toScan := s }.remember filename token.kind)

variable (filename) in
theorem lexesToken (l : Lexer text) :
    LexesToken filename l (l.toScan.skipWhitespaceAndComments filename).2
      (l.lexToken filename) := by
  rw [lexToken]
  dsimp only
  split
  · rename_i hvirtual
    exact .virtual (Bool.and_eq_true_iff.mp hvirtual).2
  · split
    · rename_i hend
      exact .eof hend
    · rename_i ch rest hrest
      rcases lexedFrom filename (l.toScan.skipWhitespaceAndComments filename).2.cursor
        ch (l.toScan.skipWhitespaceAndComments filename).2.advance with ⟨token, htoken, hlexed⟩ | h
      · rw [htoken]
        exact .token hrest hlexed
      · rw [h]
        exact .unexpected hrest

/-! ## Progress -/

/-- A bound for the turns of the loop that are left. -/
def turnsLeft (l : Lexer text) : Nat :=
  2 * l.cursor.rest.length + l.lastTokenIsAsiTrigger.toNat

theorem turnsLeft_lt {l l' : Lexer text} (h : l'.cursor.rest.length < l.cursor.rest.length) :
    l'.turnsLeft < l.turnsLeft := by
  have := Bool.toNat_le l'.lastTokenIsAsiTrigger
  rw [turnsLeft, turnsLeft]
  omega

theorem turnsLeft_le {l l' : Lexer text} (h : l'.cursor.rest.length ≤ l.cursor.rest.length)
    (htrigger : l'.lastTokenIsAsiTrigger = l.lastTokenIsAsiTrigger) :
    l'.turnsLeft ≤ l.turnsLeft := by
  rw [turnsLeft, turnsLeft, htrigger]
  omega

variable (filename) in
theorem length_rest_skip (s : Scan text) :
    (s.skipWhitespaceAndComments filename).2.cursor.rest.length ≤ s.cursor.rest.length :=
  Cursor.length_le_of_pos_le (Scan.passes_skipWhitespaceAndComments s).pos_le

/-- A token that is not the last one takes a byte, or the virtual semicolon that was due. -/
theorem LexesToken.turnsLeft_lt {l : Lexer text} {result : Option Token × Lexer text}
    (h : LexesToken filename l (l.toScan.skipWhitespaceAndComments filename).2 result)
    (heof : ∀ token, result.1 = some token → token.kind ≠ .eof) :
    result.2.turnsLeft < l.turnsLeft := by
  have hskip := length_rest_skip filename l.toScan
  cases h with
  | virtual htrigger =>
    rw [turnsLeft, turnsLeft, htrigger]
    simp only [Bool.toNat_true, Bool.toNat_false]
    omega
  | eof => exact absurd rfl (heof _ rfl)
  | unexpected hrest =>
    exact Lexer.turnsLeft_lt (Nat.lt_of_lt_of_le (Cursor.length_advance_lt hrest) hskip)
  | token hrest hlexed =>
    refine Lexer.turnsLeft_lt (Nat.lt_of_le_of_lt ?_
      (Nat.lt_of_lt_of_le (Cursor.length_advance_lt hrest) hskip))
    exact Cursor.length_le_of_pos_le hlexed.passes.pos_le

/-- The sub-lexers read no token that is the end of the file. -/
theorem LexesToken.eof_of_kind {l l' : Lexer text} {skipped : Scan text} {token : Token}
    (h : LexesToken filename l skipped (some token, l')) (heof : token.kind = .eof) :
    skipped.cursor.rest = [] ∧ token = makeEof filename skipped.cursor ∧
      l' = { l with toScan := skipped } := by
  cases h with
  | virtual => cases heof
  | eof hend => exact ⟨hend, rfl, rfl⟩
  | token _ hlexed =>
    obtain ⟨-, kind, hkind, htoken⟩ := hlexed
    dsimp only at htoken
    rw [htoken] at heof
    rw [show kind = .eof from heof] at hkind
    cases hkind

variable (filename) in
/-- What comes of the two searches for a block of assembler that the loop makes. -/
inductive SearchesAsm (l : Lexer text) : Option Token × Lexer text → Prop
  | skipped : SearchesAsm l (none, l)
  | none {s : Scan text} (awaiting : Bool) (budget : Nat)
      (hasm : Scan.LexesAsm filename l.toScan (none, s)) :
    SearchesAsm l (none,
      { l with toScan := s, awaitingAsmExprBody := awaiting, asmHeaderBudget := budget })
  | block {token : Token} {s : Scan text} (awaiting : Bool)
      (hasm : Scan.LexesAsm filename l.toScan (some token, s)) :
    SearchesAsm l (some token,
      { l with toScan := s, awaitingAsmExprBody := awaiting }.rememberAsm filename)

variable (filename) in
theorem searchesAsm_retryAsmBlock (l : Lexer text) :
    SearchesAsm filename l (l.retryAsmBlock filename) := by
  have hasm := Scan.lexesAsm filename l.toScan
  rw [retryAsmBlock]
  split
  · rcases hblock : l.toScan.lexAsmBlock filename with ⟨none | token, s⟩
    · exact .none _ _ (hblock ▸ hasm)
    · exact .block false (hblock ▸ hasm)
  · exact .skipped

variable (filename) in
theorem searchesAsm_afterAsm (l : Lexer text) : SearchesAsm filename l (l.afterAsm filename) := by
  have hasm := Scan.lexesAsm filename l.toScan
  rw [afterAsm]
  rcases hblock : l.toScan.lexAsmBlock filename with ⟨none | token, s⟩
  · dsimp only
    split
    · exact .none _ _ (hblock ▸ hasm)
    · exact .none _ _ (hblock ▸ hasm)
  · exact .block _ (hblock ▸ hasm)

theorem SearchesAsm.turnsLeft_lt {l : Lexer text} {result : Option Token × Lexer text}
    (h : SearchesAsm filename l result) (hsome : result.1.isSome = true) :
    result.2.turnsLeft < l.turnsLeft := by
  have hskip := length_rest_skip filename l.toScan
  cases h with
  | skipped => cases hsome
  | none => cases hsome
  | block _ hasm =>
    refine Lexer.turnsLeft_lt (Nat.lt_of_lt_of_le ?_ hskip)
    cases hasm with
    | block hopen hle hclose =>
      exact Nat.lt_of_lt_of_le (Cursor.length_advance_lt hclose)
        (Cursor.length_le_of_pos_le (hopen ▸ Nat.le_of_lt hle))

theorem SearchesAsm.turnsLeft_le {l : Lexer text} {result : Option Token × Lexer text}
    (h : SearchesAsm filename l result) : result.2.turnsLeft ≤ l.turnsLeft := by
  have hskip := length_rest_skip filename l.toScan
  cases h with
  | skipped => exact Nat.le_refl _
  | none _ _ hasm =>
    refine Lexer.turnsLeft_le (Nat.le_trans ?_ hskip) rfl
    cases hasm with
    | none => exact Nat.le_refl _
    | unterminated hopen hle => exact Cursor.length_le_of_pos_le (hopen ▸ Nat.le_of_lt hle)
  | block awaiting hasm =>
    exact Nat.le_of_lt (SearchesAsm.turnsLeft_lt (.block awaiting hasm) rfl)

variable (filename) in
/-- What a turn of the loop can be. -/
inductive Turns (l : Lexer text) : Turn text → Prop
  | block {block : Token} {l₁ : Lexer text}
      (hretry : SearchesAsm filename l (some block, l₁)) : Turns l ⟨[block], false, l₁⟩
  | unexpected {l₁ l₂ : Lexer text} (hretry : SearchesAsm filename l (none, l₁))
      (hlex : LexesToken filename l₁ (l₁.toScan.skipWhitespaceAndComments filename).2 (none, l₂)) :
    Turns l ⟨[], false, l₂⟩
  | token {token : Token} {l₁ l₂ : Lexer text} (hretry : SearchesAsm filename l (none, l₁))
      (hlex : LexesToken filename l₁ (l₁.toScan.skipWhitespaceAndComments filename).2
        (some token, l₂)) (heof : token.kind ≠ .eof) : Turns l ⟨[token], false, l₂⟩
  | asm {token : Token} {l₁ l₂ : Lexer text} {block : Option Token × Lexer text}
      (hretry : SearchesAsm filename l (none, l₁))
      (hlex : LexesToken filename l₁ (l₁.toScan.skipWhitespaceAndComments filename).2
        (some token, l₂)) (heof : token.kind ≠ .eof) (hasm : SearchesAsm filename l₂ block) :
    Turns l ⟨token :: block.1.toList, false, block.2⟩
  | last {token : Token} {l₁ l₂ : Lexer text} (hretry : SearchesAsm filename l (none, l₁))
      (hlex : LexesToken filename l₁ (l₁.toScan.skipWhitespaceAndComments filename).2
        (some token, l₂)) (heof : token.kind = .eof) : Turns l ⟨[token], true, l₂⟩
  | lastDue {token : Token} {l₁ l₂ : Lexer text} (hretry : SearchesAsm filename l (none, l₁))
      (hlex : LexesToken filename l₁ (l₁.toScan.skipWhitespaceAndComments filename).2
        (some token, l₂)) (heof : token.kind = .eof) (hdue : l₂.lastTokenIsAsiTrigger = true) :
    Turns l ⟨[l₂.virtualSemicolon, token], true,
      { l₂ with lastRealKind := some .semicolon, lastTokenIsAsiTrigger := false }⟩

variable (filename) in
theorem turns (l : Lexer text) : Turns filename l (l.turn filename) := by
  have hretry := searchesAsm_retryAsmBlock filename l
  rw [turn]
  generalize l.retryAsmBlock filename = searched at hretry ⊢
  rcases searched with ⟨_ | block, l₁⟩
  · have hlex := lexesToken filename l₁
    dsimp only
    generalize l₁.lexToken filename = lexed at hlex ⊢
    rcases lexed with ⟨_ | token, l₂⟩
    · exact .unexpected hretry hlex
    · dsimp only
      split_ifs with heof hdue
      · exact .lastDue hretry hlex heof hdue
      · exact .last hretry hlex heof
      · exact .asm hretry hlex heof (searchesAsm_afterAsm filename l₂)
      · exact .token hretry hlex heof
  · exact .block hretry

variable (filename) in
/-- A turn that is not the last one makes progress. -/
theorem turn_lt (l : Lexer text) (h : (l.turn filename).done = false) :
    (l.turn filename).lexer.turnsLeft < l.turnsLeft := by
  have hturns := turns filename l
  generalize l.turn filename = next at h hturns
  cases hturns with
  | block hretry => exact hretry.turnsLeft_lt rfl
  | unexpected hretry hlex =>
    exact Nat.lt_of_lt_of_le (hlex.turnsLeft_lt nofun) hretry.turnsLeft_le
  | token hretry hlex heof =>
    exact Nat.lt_of_lt_of_le (hlex.turnsLeft_lt fun _ htoken => Option.some.inj htoken ▸ heof)
      hretry.turnsLeft_le
  | asm hretry hlex heof hasm =>
    refine Nat.lt_of_le_of_lt hasm.turnsLeft_le ?_
    exact Nat.lt_of_lt_of_le (hlex.turnsLeft_lt fun _ htoken => Option.some.inj htoken ▸ heof)
      hretry.turnsLeft_le
  | last => cases h
  | lastDue => cases h

variable (filename) in
/-- The loop of the lexer, with the tokens so far. -/
def tokenizeLoop (l : Lexer text) (tokens : List Token) : List Token × DiagnosticEngine :=
  let next := l.turn filename
  if _ : next.done then (tokens ++ next.tokens, next.lexer.diagnostics)
  else tokenizeLoop next.lexer (tokens ++ next.tokens)
termination_by l.turnsLeft
decreasing_by exact turn_lt filename l (Bool.eq_false_iff.mpr ‹_›)

end Lexer

def tokenize (text : List Char) (filename : String) (diagnostics : DiagnosticEngine) :
    List Token × DiagnosticEngine :=
  (Lexer.init text diagnostics).tokenizeLoop filename []

end Mirage.Syntax
