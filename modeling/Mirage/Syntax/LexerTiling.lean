import Mirage.Syntax.LexerSteps

/-!
# Tokens tile the source

The tokens of a source file are in the order of the file and do not overlap, each is at the line
and the column it says it is at, and each has the text of its range. What is between them is
whitespace, comments, the closing brace of a block of assembler, or has been reported.

`Tiled` says this of the bytes before the cursor. The parts of the lexer keep it in one of four
ways, and the loop of the lexer by induction on its turns:

* `Tiled.pass`: the bytes that are passed are accounted for one by one;
* `Tiled.push`: the bytes that are passed are a new token;
* `Tiled.insert`: a virtual semicolon;
* `Tiled.mark`: the bytes that are passed are reported. A report is dropped if it has been made
  before, which is not so as no two marks are at the same line and column, and if there are
  too many: `tokenize_tiles` has to leave that case out.
-/

namespace Mirage.Syntax

/-- A token with bytes of its own: not the end of the file, not a virtual semicolon. -/
def Token.isReal (t : Token) : Bool :=
  t.kind ≠ .eof && !(t.kind == .semicolon && t.lexeme.isEmpty)

/-- The end of the range of a token. -/
def SourceLocation.stop (location : SourceLocation) : Nat := location.offset + location.length

/-- A location has the line and the column of its offset. -/
def SourceLocation.Placed (text : List Char) (location : SourceLocation) : Prop :=
  location.line = lineAt text location.offset ∧ location.column = columnAt text location.offset

/-- The lexeme of a token is what the source has in its range. For a block of assembler it is the
    body, without the brace that the range starts with. -/
def Token.Spells (text : List Char) (t : Token) : Prop :=
  t.lexeme = Cursor.slice text
    (if t.kind = .asmBlock then t.location.offset + 1 else t.location.offset) t.location.stop

def isSpace (ch : Char) : Bool := ch == ' ' || ch == '\t' || ch == '\r' || ch == '\n'

/-- The range of a comment. A line comment ends before a line feed, and a block comment with the
    first `*/`; both end with the file at the latest. -/
inductive IsComment (text : List Char) : Nat → Nat → Prop
  | line {a b : Nat} (h₁ : text[a]? = some '/') (h₂ : text[a + 1]? = some '/')
      (hline : ∀ k, a ≤ k → k < b → text[k]? ≠ some '\n')
      (hend : text[b]? = some '\n' ∨ b = text.length) : IsComment text a b
  | block {a b : Nat} (h₁ : text[a]? = some '/') (h₂ : text[a + 1]? = some '*') (hle : a + 2 ≤ b)
      (hbody : ∀ k, a + 2 ≤ k → k < b → ¬ (text[k]? = some '*' ∧ text[k + 1]? = some '/'))
      (h₃ : text[b]? = some '*') (h₄ : text[b + 1]? = some '/') : IsComment text a (b + 2)
  | unterminated {a : Nat} (h₁ : text[a]? = some '/') (h₂ : text[a + 1]? = some '*')
      (hbody : ∀ k, a + 2 ≤ k → ¬ (text[k]? = some '*' ∧ text[k + 1]? = some '/')) :
      IsComment text a text.length

/-- A byte is part of a comment that is between two tokens, and before `n`. -/
def Commented (text : List Char) (tokens : List Token) (n k : Nat) : Prop :=
  ∃ a b, IsComment text a b ∧ b ≤ n ∧ a ≤ k ∧ k < b ∧
    ∀ t ∈ tokens, t.isReal = true → t.location.stop ≤ a ∨ b ≤ t.location.offset

/-- A byte is the closing brace of a block of assembler. -/
def Delimits (text : List Char) (tokens : List Token) (k : Nat) : Prop :=
  ∃ t ∈ tokens, t.kind = .asmBlock ∧ t.location.stop = k ∧ text[k]? = some '}'

/-- A byte is in the range of a diagnostic. -/
def Reported (filename : String) (diagnostics : List Diagnostic) (k : Nat) : Prop :=
  ∃ d ∈ diagnostics, d.location.filename = filename ∧ d.location.offset ≤ k ∧ k < d.location.stop

/-- Why a byte before `n` is there. -/
inductive Accounted (text : List Char) (filename : String) (tokens : List Token)
    (diagnostics : List Diagnostic) (n k : Nat) : Prop
  | token {t : Token} (ht : t ∈ tokens) (hreal : t.isReal = true) (hle : t.location.offset ≤ k)
      (hlt : k < t.location.stop)
  | space {ch : Char} (hch : text[k]? = some ch) (hspace : isSpace ch = true)
  | comment (h : Commented text tokens n k)
  | delimiter (h : Delimits text tokens k)
  | diagnostic (h : Reported filename diagnostics k)

/-- More bytes, and tokens behind those there were. -/
theorem Accounted.mono {text : List Char} {filename : String} {tokens tokens' : List Token}
    {diagnostics diagnostics' : List Diagnostic} {n n' k : Nat}
    (h : Accounted text filename tokens diagnostics n k) (hn : n ≤ n')
    (htokens : ∀ t ∈ tokens', t.isReal = true → n ≤ t.location.offset)
    (hdiagnostics : ∀ d ∈ diagnostics, d ∈ diagnostics') :
    Accounted text filename (tokens ++ tokens') diagnostics' n' k := by
  cases h with
  | token ht hreal hle hlt => exact .token (List.mem_append_left _ ht) hreal hle hlt
  | space hch hspace => exact .space hch hspace
  | comment h =>
    obtain ⟨a, b, hcomment, hb, hak, hkb, hdisjoint⟩ := h
    refine .comment ⟨a, b, hcomment, by omega, hak, hkb, fun t ht hreal => ?_⟩
    rcases List.mem_append.mp ht with ht | ht
    · exact hdisjoint t ht hreal
    · exact .inr (Nat.le_trans hb (htokens t ht hreal))
  | delimiter h =>
    obtain ⟨t, ht, hkind, hstop, hbrace⟩ := h
    exact .delimiter ⟨t, List.mem_append_left _ ht, hkind, hstop, hbrace⟩
  | diagnostic h =>
    obtain ⟨d, hd, hfile, hrange⟩ := h
    exact .diagnostic ⟨d, hdiagnostics d hd, hfile, hrange⟩

/-- The tokens tile what is before the cursor. -/
structure Tiled {text : List Char} (filename : String) (tokens : List Token) (s : Scan text) :
    Prop where
  ordered : (tokens.filter Token.isReal).Pairwise fun t t' => t.location.stop ≤ t'.location.offset
  nonempty : ∀ t ∈ tokens, t.isReal = true → 0 < t.location.length
  before : ∀ t ∈ tokens, t.isReal = true → t.location.stop ≤ s.cursor.pos
  spells : ∀ t ∈ tokens, t.isReal = true → t.Spells text
  placed : ∀ t ∈ tokens, t.location.Placed text
  notEof : ∀ t ∈ tokens, t.kind ≠ .eof
  accounted : ∀ k < s.cursor.pos,
    Accounted text filename tokens s.diagnostics.diagnostics s.cursor.pos k ∨
      s.diagnostics.hasReachedMaxErrors = true
  marks : ∀ d ∈ s.diagnostics.diagnostics, d.location.filename = filename → Marks d.message →
    d.location.Placed text ∧ d.location.offset < s.cursor.pos

namespace Tiled

variable {text : List Char} {filename : String} {tokens : List Token} {s s' : Scan text}

/-- What was accounted for still is. -/
theorem accounted_of_lt (h : Tiled filename tokens s) (hpasses : Scan.Passes s s')
    {tokens' : List Token}
    (htokens : ∀ t ∈ tokens', t.isReal = true → s.cursor.pos ≤ t.location.offset) {k : Nat}
    (hk : k < s.cursor.pos) :
    Accounted text filename (tokens ++ tokens') s'.diagnostics.diagnostics s'.cursor.pos k ∨
      s'.diagnostics.hasReachedMaxErrors = true := by
  rcases h.accounted k hk with hacc | hfull
  · exact .inl (hacc.mono hpasses.pos_le htokens hpasses.kept)
  · exact .inr (hpasses.full hfull)

/-- No mark is made, and those that there are stay behind. -/
theorem marks_of_passes (h : Tiled filename tokens s) (hpasses : Scan.Passes s s') {d : Diagnostic}
    (hd : d ∈ s'.diagnostics.diagnostics) (hfile : d.location.filename = filename)
    (hmarks : Marks d.message) :
    d.location.Placed text ∧ d.location.offset < s'.cursor.pos := by
  rcases hpasses.remark d hd with hd | hd
  · obtain ⟨hplaced, hlt⟩ := h.marks d hd hfile hmarks
    exact ⟨hplaced, Nat.lt_of_lt_of_le hlt hpasses.pos_le⟩
  · exact absurd hmarks hd

/-- The bytes that are passed are accounted for one by one. -/
theorem pass (h : Tiled filename tokens s) (hpasses : Scan.Passes s s')
    (hacc : ∀ k, s.cursor.pos ≤ k → k < s'.cursor.pos →
      Accounted text filename tokens s'.diagnostics.diagnostics s'.cursor.pos k) :
    Tiled filename tokens s' where
  ordered := h.ordered
  nonempty := h.nonempty
  before t ht hreal := Nat.le_trans (h.before t ht hreal) hpasses.pos_le
  spells := h.spells
  placed := h.placed
  notEof := h.notEof
  accounted k hk := by
    by_cases hlt : k < s.cursor.pos
    · have hacc' := h.accounted_of_lt hpasses (List.forall_mem_nil _) hlt
      rwa [List.append_nil] at hacc'
    · exact .inl (hacc k (by omega) hk)
  marks _ hd hfile hmarks := h.marks_of_passes hpasses hd hfile hmarks

/-- The bytes that are passed are a new token. -/
theorem push (h : Tiled filename tokens s) (hpasses : Scan.Passes s s') {t : Token}
    (hreal : t.isReal = true) (hoffset : t.location.offset = s.cursor.pos)
    (hstop : t.location.stop = s'.cursor.pos) (hlt : s.cursor.pos < s'.cursor.pos)
    (hspells : t.Spells text) (hplaced : t.location.Placed text) :
    Tiled filename (tokens ++ [t]) s' where
  ordered := by
    rw [List.filter_append, List.filter_singleton, hreal]
    refine List.pairwise_append.mpr ⟨h.ordered, List.pairwise_singleton _ _, fun t' ht' u hu => ?_⟩
    obtain ⟨ht', hreal'⟩ := List.mem_filter.mp ht'
    rw [List.mem_singleton.mp hu, hoffset]
    exact h.before t' ht' hreal'
  nonempty := by
    refine List.forall_mem_append.mpr ⟨h.nonempty, List.forall_mem_singleton.mpr fun _ => ?_⟩
    rw [SourceLocation.stop] at hstop
    omega
  before := by
    refine List.forall_mem_append.mpr ⟨fun t' ht' hreal' => ?_,
      List.forall_mem_singleton.mpr fun _ => Nat.le_of_eq hstop⟩
    exact Nat.le_trans (h.before t' ht' hreal') hpasses.pos_le
  spells := List.forall_mem_append.mpr ⟨h.spells, List.forall_mem_singleton.mpr fun _ => hspells⟩
  placed := List.forall_mem_append.mpr ⟨h.placed, List.forall_mem_singleton.mpr hplaced⟩
  notEof := by
    refine List.forall_mem_append.mpr ⟨h.notEof, List.forall_mem_singleton.mpr fun heof => ?_⟩
    simp [Token.isReal, heof] at hreal
  accounted k hk := by
    by_cases hk' : k < s.cursor.pos
    · refine h.accounted_of_lt hpasses (List.forall_mem_singleton.mpr fun _ => ?_) hk'
      exact Nat.le_of_eq hoffset.symm
    · exact .inl (.token (List.mem_append_right _ (List.mem_singleton_self t)) hreal
        (by omega) (by omega))
  marks _ hd hfile hmarks := h.marks_of_passes hpasses hd hfile hmarks

/-- A token without bytes of its own changes nothing. -/
theorem insert (h : Tiled filename tokens s) {t : Token} (hreal : t.isReal = false)
    (hkind : t.kind ≠ .eof) (hplaced : t.location.Placed text) :
    Tiled filename (tokens ++ [t]) s where
  ordered := by
    rw [List.filter_append, List.filter_singleton, hreal]
    exact (List.append_nil _).symm ▸ h.ordered
  nonempty := List.forall_mem_append.mpr ⟨h.nonempty, List.forall_mem_singleton.mpr (by simp [hreal])⟩
  before := List.forall_mem_append.mpr ⟨h.before, List.forall_mem_singleton.mpr (by simp [hreal])⟩
  spells := List.forall_mem_append.mpr ⟨h.spells, List.forall_mem_singleton.mpr (by simp [hreal])⟩
  placed := List.forall_mem_append.mpr ⟨h.placed, List.forall_mem_singleton.mpr hplaced⟩
  notEof := List.forall_mem_append.mpr ⟨h.notEof, List.forall_mem_singleton.mpr hkind⟩
  accounted _ := h.accounted_of_lt (.refl s) (List.forall_mem_singleton.mpr (by simp [hreal]))
  marks := h.marks

/-- A mark at the cursor has not been made before. -/
theorem key_ne (h : Tiled filename tokens s) {stage : DiagnosticStage} {location : SourceLocation}
    {message : String} (hfile : location.filename = filename) (hmarks : Marks message)
    (hplaced : location.Placed text) (hoffset : location.offset = s.cursor.pos) :
    ∀ d ∈ s.diagnostics.diagnostics,
      d.key ≠ (⟨.error, stage, location, message⟩ : Diagnostic).key := by
  intro d hd hkey
  simp only [Diagnostic.key, Prod.mk.injEq] at hkey
  obtain ⟨-, -, hfile', hline, hcolumn, hmessage⟩ := hkey
  obtain ⟨hplaced', hlt⟩ := h.marks d hd (hfile'.trans hfile) (hmessage ▸ hmarks)
  have hpos := s.cursor.pos_le
  have heq : d.location.offset = location.offset :=
    eq_of_lineAt_columnAt (by omega) (by omega) (hplaced'.1.symm.trans (hline.trans hplaced.1))
      (hplaced'.2.symm.trans (hcolumn.trans hplaced.2))
  omega

/-- The bytes that are passed are reported. -/
theorem mark (h : Tiled filename tokens s) {c : Cursor text} {location : SourceLocation}
    {message : String} (hfile : location.filename = filename) (hmarks : Marks message)
    (hplaced : location.Placed text) (hoffset : location.offset = s.cursor.pos)
    (hstop : location.stop = c.pos) (hlt : s.cursor.pos < c.pos) :
    Tiled filename tokens (Scan.reportError location message { s with cursor := c }) where
  ordered := h.ordered
  nonempty := h.nonempty
  before t ht hreal := Nat.le_trans (h.before t ht hreal) (Nat.le_of_lt hlt)
  spells := h.spells
  placed := h.placed
  notEof := h.notEof
  accounted k hk := by
    rcases DiagnosticEngine.reported_of_fresh (h.key_ne hfile hmarks hplaced
      hoffset) with hfull | hreported
    · exact .inr hfull
    by_cases hk' : k < s.cursor.pos
    · rcases h.accounted k hk' with hacc | hfull
      · refine .inl ?_
        have hacc' := hacc.mono (Nat.le_of_lt hlt) (List.forall_mem_nil _)
          (fun d hd => DiagnosticEngine.mem_report hd .error .lexer location message)
        rwa [List.append_nil] at hacc'
      · exact .inr (DiagnosticEngine.hasReachedMaxErrors_report hfull _ _ _ _)
    · refine .inl (.diagnostic ⟨_, hreported, hfile, ?_, ?_⟩)
      · exact Nat.le_trans (Nat.le_of_eq hoffset) (by omega)
      · exact Nat.lt_of_lt_of_eq hk hstop.symm
  marks d hd hfile' hmarks' := by
    rcases DiagnosticEngine.of_mem_report hd with hd | rfl
    · obtain ⟨hplaced', hlt'⟩ := h.marks d hd hfile' hmarks'
      exact ⟨hplaced', Nat.lt_trans hlt' hlt⟩
    · exact ⟨hplaced, Nat.lt_of_le_of_lt (Nat.le_of_eq hoffset) hlt⟩

/-! ## Whitespace and comments -/

/-- A comment behind the last token accounts for its bytes. -/
theorem accounted_of_isComment (h : Tiled filename tokens s) {diagnostics : List Diagnostic}
    {b k : Nat} (hcomment : IsComment text s.cursor.pos b) (hk : s.cursor.pos ≤ k) (hkb : k < b) :
    Accounted text filename tokens diagnostics b k :=
  .comment ⟨_, b, hcomment, Nat.le_refl b, hk, hkb, fun t ht hreal => .inl (h.before t ht hreal)⟩

theorem advance_of_isSpace (h : Tiled filename tokens s) {ch : Char} {rest : List Char}
    (hrest : s.cursor.rest = ch :: rest) (hspace : isSpace ch = true) :
    Tiled filename tokens s.advance := by
  refine h.pass (.advance s) fun k hk hlt => ?_
  have hpos : s.advance.cursor.pos = s.cursor.pos + 1 := (Cursor.advance_of_cons hrest).2
  obtain rfl : k = s.cursor.pos := by omega
  exact .space (Cursor.getElem?_of_cons hrest) hspace

end Tiled

/-- The byte after the next one. -/
theorem Scan.getElem?_of_peekNext {text : List Char} {s : Scan text} {ch ch' : Char}
    {rest : List Char} (hrest : s.cursor.rest = ch :: rest) (hnext : s.peekNext = ch')
    (hch' : ch' ≠ '\x00') : text[s.cursor.pos + 1]? = some ch' := by
  have hadv := Cursor.advance_of_cons hrest
  rw [Scan.peekNext, hrest] at hnext
  rcases rest with _ | ⟨next, rest⟩
  · exact absurd hnext.symm hch'
  · rw [← hadv.2, ← hnext]
    exact Cursor.getElem?_of_cons hadv.1

theorem isComment_of_line {text : List Char} {s : Scan text} {rest : List Char}
    (hrest : s.cursor.rest = '/' :: rest) (hnext : s.peekNext = '/') :
    IsComment text s.cursor.pos (s.advanceWhile (· ≠ '\n')).cursor.pos := by
  refine .line (Cursor.getElem?_of_cons hrest) (Scan.getElem?_of_peekNext hrest hnext (by decide))
    (fun k hk hlt => ?_) ?_
  · obtain ⟨ch, hch, hne⟩ := Cursor.of_lt_advanceWhile hk hlt
    rw [hch]
    simpa using hne
  · rcases hend : (s.cursor.advanceWhile (· ≠ '\n')).rest with _ | ⟨ch, rest'⟩
    · exact .inr (Cursor.pos_of_nil hend)
    · obtain rfl : ch = '\n' := by simpa using Cursor.rest_advanceWhile hend
      exact .inl (Cursor.getElem?_of_cons hend)

/-- The body of a block comment ends with the file or before `*/`, and has no `*/` in it. -/
theorem blockCommentBody_spec {text : List Char} (crossedNewline : Bool) (c : Cursor text) :
    ((blockCommentBody crossedNewline c).2.rest = [] ∨
      ∃ rest, (blockCommentBody crossedNewline c).2.rest = '*' :: '/' :: rest) ∧
    ∀ k, c.pos ≤ k → k < (blockCommentBody crossedNewline c).2.pos →
      ¬ (text[k]? = some '*' ∧ text[k + 1]? = some '/') := by
  fun_induction blockCommentBody crossedNewline c with
  | case1 _ c hnil => exact ⟨.inl hnil, fun _ hk hlt => absurd hlt (Nat.not_lt.mpr hk)⟩
  | case2 _ c ch rest hcons hend =>
    obtain ⟨rest', hrest'⟩ := List.head?_eq_some_iff.mp hend.2
    exact ⟨.inr ⟨rest', by rw [hcons, hend.1, hrest']⟩,
      fun _ hk hlt => absurd hlt (Nat.not_lt.mpr hk)⟩
  | case3 _ c ch rest hcons hend ih =>
    obtain ⟨hrest, hpos⟩ := Cursor.advance_of_cons hcons
    refine ⟨ih.1, fun k hk hlt => ?_⟩
    by_cases hkc : k = c.pos
    · rintro ⟨hstar, hslash⟩
      rw [hkc, Cursor.getElem?_of_cons hcons] at hstar
      rw [hkc, ← hpos, ← List.head?_drop, c.advance.rest_eq, hrest] at hslash
      exact hend ⟨Option.some.inj hstar, hslash⟩
    · exact ih.2 k (by omega) hlt

theorem isComment_of_block {text : List Char} (filename : String) (crossedNewline : Bool)
    {s : Scan text} {rest : List Char} (hrest : s.cursor.rest = '/' :: rest)
    (hnext : s.peekNext = '*') :
    IsComment text s.cursor.pos (s.skipBlockComment filename crossedNewline).2.cursor.pos := by
  have h₁ := Cursor.getElem?_of_cons hrest
  have h₂ := Scan.getElem?_of_peekNext hrest hnext (by decide)
  have hlen : s.cursor.advance.advance.pos = s.cursor.pos + 2 := by
    have hpos := (Cursor.advance_of_cons hrest).2
    rcases hadv : s.cursor.advance.rest with _ | ⟨ch, rest'⟩
    · have := Cursor.pos_of_nil hadv
      have := (List.getElem?_eq_some_iff.mp h₂).1
      omega
    · rw [(Cursor.advance_of_cons hadv).2, hpos]
  have hle := pos_le_blockCommentBody crossedNewline s.cursor.advance.advance
  obtain ⟨hend, hbody⟩ := blockCommentBody_spec crossedNewline s.cursor.advance.advance
  rw [Scan.skipBlockComment]
  rw [hlen] at hle hbody
  rcases hend with hend | ⟨rest', hend⟩
  · rw [if_pos (by simp [Scan.atEnd, Cursor.atEnd, hend])]
    have hpos := Cursor.pos_of_nil hend
    refine (?_ : IsComment text s.cursor.pos (blockCommentBody _ _).2.pos)
    rw [hpos]
    refine .unterminated h₁ h₂ fun k hk hclose => ?_
    refine hbody k hk ?_ hclose
    rw [hpos]
    exact (List.getElem?_eq_some_iff.mp hclose.1).1
  · rw [if_neg (by simp [Scan.atEnd, Cursor.atEnd, hend])]
    obtain ⟨hadv, hpos⟩ := Cursor.advance_of_cons hend
    have hpos' := (Cursor.advance_of_cons hadv).2
    refine (?_ : IsComment text s.cursor.pos (blockCommentBody _ _).2.advance.advance.pos)
    rw [hpos', hpos]
    refine .block h₁ h₂ hle hbody (Cursor.getElem?_of_cons hend) ?_
    rw [← hpos]
    exact Cursor.getElem?_of_cons hadv

theorem Tiled.skipLoop {text : List Char} {filename : String} {tokens : List Token}
    (crossedNewline : Bool) {s : Scan text} (h : Tiled filename tokens s) :
    Tiled filename tokens (s.skipLoop filename crossedNewline).2 := by
  fun_induction Scan.skipLoop filename crossedNewline s with
  | case1 => exact h
  | case2 _ s ch rest hrest hspace ih =>
    refine ih (h.advance_of_isSpace hrest ?_)
    rcases hspace with rfl | rfl | rfl <;> rfl
  | case3 _ s rest hrest _ ih => exact ih (h.advance_of_isSpace hrest rfl)
  | case4 _ s ch rest hrest _ _ hslash ih =>
    have hcomment := isComment_of_line (hslash.1 ▸ hrest) hslash.2
    exact ih (h.pass (.advanceWhile _ s) fun k hk hlt => h.accounted_of_isComment hcomment hk hlt)
  | case5 crossed s ch rest hrest _ _ _ hstar _ ih =>
    have hcomment := isComment_of_block filename crossed (hstar.1 ▸ hrest) hstar.2
    exact ih (h.pass (Scan.passes_skipBlockComment filename crossed s) fun k hk hlt =>
      h.accounted_of_isComment hcomment hk hlt)
  | case6 => exact h

theorem Tiled.skip {text : List Char} {filename : String} {tokens : List Token} {s : Scan text}
    (h : Tiled filename tokens s) :
    Tiled filename tokens (s.skipWhitespaceAndComments filename).2 :=
  h.skipLoop false

/-! ## Tokens -/

theorem placed_makeLocation {text : List Char} (filename : String) (c : Cursor text) :
    (makeLocation filename c).Placed text :=
  ⟨c.line_eq, c.column_eq⟩

theorem placed_makeRange {text : List Char} (filename : String) (start c : Cursor text) :
    (makeRange filename start c).Placed text :=
  ⟨start.line_eq, start.column_eq⟩

theorem stop_makeRange {text : List Char} (filename : String) {start c : Cursor text}
    (h : start.pos < c.pos) : (makeRange filename start c).stop = c.pos :=
  Nat.add_sub_of_le (Nat.le_of_lt h)

/-- A token that a sub-lexer has read has bytes of its own. -/
theorem isReal_makeToken {text : List Char} (filename : String) {kind : TokenKind}
    (hkind : kind.isPlain = true) {start c : Cursor text} (h : start.pos < c.pos) :
    (makeToken filename kind start c).isReal = true := by
  have hlexeme : (Cursor.slice text start.pos c.pos).isEmpty = false := by
    rw [List.isEmpty_eq_false_iff, ← List.length_pos_iff, Cursor.length_slice c.pos_le]
    omega
  have heof : kind ≠ .eof := by simpa using (Bool.and_eq_true_iff.mp hkind).2
  simp [Token.isReal, makeToken, hlexeme, heof]

theorem spells_makeToken {text : List Char} (filename : String) {kind : TokenKind}
    (hkind : kind.isPlain = true) {start c : Cursor text} (h : start.pos < c.pos) :
    (makeToken filename kind start c).Spells text := by
  have hasm : kind ≠ .asmBlock := by simpa using (Bool.and_eq_true_iff.mp hkind).1
  rw [Token.Spells, makeToken, stop_makeRange filename h, if_neg hasm]
  rfl

theorem spells_asmBlock {text : List Char} (filename : String) {start c : Cursor text}
    (h : start.pos < c.pos) :
    Token.Spells text ⟨.asmBlock, Cursor.slice text (start.pos + 1) c.pos,
      makeRange filename start c⟩ := by
  rw [Token.Spells, stop_makeRange filename h]
  rfl

namespace Tiled

variable {text : List Char} {filename : String} {tokens : List Token} {s : Scan text}

/-- A search for a block of assembler passes whitespace and comments, and the block if there is
    one. A block that never ends is reported. -/
theorem lexesAsm (h : Tiled filename tokens s) {result : Option Token × Scan text}
    (hasm : Scan.LexesAsm filename s result) :
    Tiled filename (tokens ++ result.1.toList) result.2 := by
  have hskip := h.skip
  cases hasm with
  | none => simpa using hskip
  | @unterminated start stop hstart hlt hend =>
    rw [Option.toList_none, List.append_nil]
    refine hskip.mark rfl (.inl rfl) (placed_makeRange filename start stop) ?_
      (stop_makeRange filename hlt) (hstart ▸ hlt)
    exact congrArg Cursor.pos hstart
  | @block start stop rest hstart hlt hclose =>
    subst hstart
    have hpush := hskip.push (.move (Nat.le_of_lt hlt)) rfl rfl (stop_makeRange filename hlt) hlt
      (spells_asmBlock filename hlt) (placed_makeRange filename _ stop)
    refine hpush.pass (.advance _) fun k hk hlt' => ?_
    have hk' : k < stop.pos + 1 := Nat.lt_of_lt_of_eq hlt' (Cursor.advance_of_cons hclose).2
    obtain rfl : k = stop.pos := Nat.le_antisymm (Nat.le_of_lt_succ hk') hk
    exact .delimiter ⟨_, List.mem_append_right _ (List.mem_singleton_self _), rfl,
      stop_makeRange filename hlt, Cursor.getElem?_of_cons hclose⟩

end Tiled

namespace Lexer

variable {text : List Char} {filename : String} {tokens : List Token} {l : Lexer text}

/-- The tokens tile what is before the cursor, and if a virtual semicolon is due, it is known
    where. -/
structure Tiles (filename : String) (tokens : List Token) (l : Lexer text) : Prop where
  tiled : Tiled filename tokens l.toScan
  due : l.lastTokenIsAsiTrigger = true → l.lastTokenEnd.Placed text

theorem Tiles.searchesAsm (h : l.Tiles filename tokens) {result : Option Token × Lexer text}
    (hasm : SearchesAsm filename l result) :
    result.2.Tiles filename (tokens ++ result.1.toList) := by
  cases hasm with
  | skipped => simpa using h
  | none _ _ hasm => exact ⟨h.tiled.lexesAsm hasm, h.due⟩
  | block _ hasm => exact ⟨h.tiled.lexesAsm hasm, fun _ => placed_makeLocation filename _⟩

theorem Tiles.searchesAsm_none (h : l.Tiles filename tokens) {l' : Lexer text}
    (hasm : SearchesAsm filename l (none, l')) : l'.Tiles filename tokens := by
  have hsearched := h.searchesAsm hasm
  rwa [Option.toList_none, List.append_nil] at hsearched

/-- The next token, unless it is the last one. -/
theorem Tiles.lexesToken (h : l.Tiles filename tokens) {result : Option Token × Lexer text}
    (hresult : LexesToken filename l (l.toScan.skipWhitespaceAndComments filename).2 result)
    (heof : ∀ token, result.1 = some token → token.kind ≠ .eof) :
    result.2.Tiles filename (tokens ++ result.1.toList) := by
  have hskip := h.tiled.skip
  cases hresult with
  | virtual htrigger =>
    exact ⟨hskip.insert rfl (heof _ rfl) (h.due htrigger), fun hfalse => nomatch hfalse⟩
  | eof => exact absurd rfl (heof _ rfl)
  | unexpected hrest =>
    refine ⟨?_, h.due⟩
    have hpos := (Cursor.advance_of_cons hrest).2
    rw [Option.toList_none, List.append_nil]
    exact hskip.mark rfl (.inr ⟨_, rfl⟩) (placed_makeLocation filename _) rfl hpos.symm
      (Nat.lt_of_lt_of_eq (Nat.lt_succ_self _) hpos.symm)
  | token hrest hlexed =>
    refine ⟨?_, fun _ => placed_makeLocation filename _⟩
    obtain ⟨hpasses, kind, hkind, htoken⟩ := hlexed
    dsimp only at hpasses htoken
    subst htoken
    have hlt : (l.toScan.skipWhitespaceAndComments filename).2.cursor.pos < _ :=
      Nat.lt_of_lt_of_le (Nat.lt_of_lt_of_eq (Nat.lt_succ_self _)
        (Cursor.advance_of_cons hrest).2.symm) hpasses.pos_le
    exact hskip.push ((Scan.Passes.advance _).trans hpasses) (isReal_makeToken filename hkind hlt)
      rfl (stop_makeRange filename hlt) hlt (spells_makeToken filename hkind hlt)
      (placed_makeRange filename _ _)

/-! ## The loop -/

theorem Tiles.turn (h : l.Tiles filename tokens) (hdone : (l.turn filename).done = false) :
    (l.turn filename).lexer.Tiles filename (tokens ++ (l.turn filename).tokens) := by
  have hturns := turns filename l
  generalize l.turn filename = next at hdone hturns
  cases hturns with
  | block hretry => exact h.searchesAsm hretry
  | unexpected hretry hlex => exact (h.searchesAsm_none hretry).lexesToken hlex nofun
  | token hretry hlex heof =>
    exact (h.searchesAsm_none hretry).lexesToken hlex fun _ ht => Option.some.inj ht ▸ heof
  | @asm _ _ _ block hretry hlex heof hasm =>
    have hlexed := (h.searchesAsm_none hretry).lexesToken hlex
      fun _ ht => Option.some.inj ht ▸ heof
    have hsearched := hlexed.searchesAsm hasm
    rwa [List.append_assoc] at hsearched
  | last => cases hdone
  | lastDue => cases hdone

/-- The last turn: the cursor is at the end of the file, and a virtual semicolon may be due. -/
theorem Tiles.last (h : l.Tiles filename tokens) (hdone : (l.turn filename).done = true) :
    ∃ virtuals, (l.turn filename).tokens =
        virtuals ++ [makeEof filename (l.turn filename).lexer.cursor] ∧
      Tiled filename (tokens ++ virtuals) (l.turn filename).lexer.toScan ∧
      (l.turn filename).lexer.cursor.rest = [] := by
  have hturns := turns filename l
  generalize l.turn filename = next at hdone hturns
  cases hturns with
  | block => cases hdone
  | unexpected => cases hdone
  | token => cases hdone
  | asm => cases hdone
  | last hretry hlex heof =>
    obtain ⟨hend, rfl, rfl⟩ := hlex.eof_of_kind heof
    have htiled := (h.searchesAsm_none hretry).tiled.skip
    exact ⟨[], rfl, (List.append_nil tokens).symm ▸ htiled, hend⟩
  | lastDue hretry hlex heof hdue =>
    obtain ⟨hend, rfl, rfl⟩ := hlex.eof_of_kind heof
    have htiles := h.searchesAsm_none hretry
    exact ⟨[_], rfl, htiles.tiled.skip.insert rfl nofun (htiles.due hdue), hend⟩

end Lexer

/-- The tokens tile the source: one `eof` ends them, and those with bytes of their own are in
    order, do not overlap, and have the bytes of their ranges. -/
structure TilesSource (text : List Char) (tokens : List Token) : Prop where
  ends : ∃ before last, tokens = before ++ [last] ∧ last.kind = .eof ∧
    ∀ t ∈ before, t.kind ≠ .eof
  ordered : (tokens.filter Token.isReal).Pairwise fun t t' => t.location.stop ≤ t'.location.offset
  nonempty : ∀ t ∈ tokens, t.isReal = true → 0 < t.location.length
  inside : ∀ t ∈ tokens, t.isReal = true → t.location.stop ≤ text.length
  spells : ∀ t ∈ tokens, t.isReal = true → t.Spells text
  placed : ∀ t ∈ tokens, t.location.Placed text

/-- The end of the file comes after the tokens that tile it. -/
theorem Tiled.finish {text : List Char} {filename : String} {tokens : List Token} {s : Scan text}
    (h : Tiled filename tokens s) (hend : s.cursor.rest = []) :
    TilesSource text (tokens ++ [makeEof filename s.cursor]) where
  ends := ⟨tokens, _, rfl, rfl, h.notEof⟩
  ordered := by
    rw [List.filter_append]
    exact (List.append_nil _).symm ▸ h.ordered
  nonempty := List.forall_mem_append.mpr ⟨h.nonempty, List.forall_mem_singleton.mpr nofun⟩
  inside := by
    rw [← Cursor.pos_of_nil hend]
    exact List.forall_mem_append.mpr ⟨h.before, List.forall_mem_singleton.mpr nofun⟩
  spells := List.forall_mem_append.mpr ⟨h.spells, List.forall_mem_singleton.mpr nofun⟩
  placed := List.forall_mem_append.mpr
    ⟨h.placed, List.forall_mem_singleton.mpr (placed_makeLocation filename _)⟩

theorem Lexer.Tiles.tokenizeLoop {text : List Char} {filename : String} {tokens : List Token}
    {l : Lexer text} (h : l.Tiles filename tokens) :
    TilesSource text (l.tokenizeLoop filename tokens).1 ∧
      ∀ k < text.length, Accounted text filename (l.tokenizeLoop filename tokens).1
        (l.tokenizeLoop filename tokens).2.diagnostics text.length k ∨
        (l.tokenizeLoop filename tokens).2.hasReachedMaxErrors = true := by
  fun_induction Lexer.tokenizeLoop filename l tokens with
  | case1 l tokens next hdone =>
    obtain ⟨virtuals, htokens, htiled, hend⟩ := h.last hdone
    rw [htokens, ← List.append_assoc]
    refine ⟨htiled.finish hend, fun k hk => ?_⟩
    rw [← Cursor.pos_of_nil hend] at hk ⊢
    refine htiled.accounted_of_lt (.refl _) ?_ hk
    exact List.forall_mem_singleton.mpr nofun
  | case2 l tokens next hdone ih => exact ih (h.turn (Bool.eq_false_iff.mpr hdone))

/-- A file with one stray byte and a block of assembler. -/
def strayByte : List Char := "x` // y\nasm { nop }".toList

/-- A file of 21 stray bytes. -/
def strayBytes : List Char := List.replicate 21 '\x60'

end Mirage.Syntax
