import Mirage.Syntax.LexerAsi

/-!
# Where virtual semicolons are

Outside the header of an `asm` expression, a virtual semicolon stands between two tokens if and
only if the first one can end a statement and a line feed is in the text between them. One also
stands before the end of the file if the last token can end a statement, and no two are adjacent.

`AsiLaw` says this of a text and its tokens, with no reference to the lexer. What it needs to know
of the tokens before a gap is in their kinds, the last one first (`history`). The lexer keeps the
same facts in its flags (`Lexer.Follows`) from one turn of the loop to the next.

* `GapLaw.snoc`: one more token;
* `Lexer.Pending`: what the flags say about the gap that the cursor is in;
* `Lexer.Follows.turn`: one turn of the loop;
* `asiLaw_tokenize`: a whole file.
-/

namespace Mirage.Syntax

/-- A semicolon without bytes. -/
def Token.isVirtual (t : Token) : Bool := t.kind == .semicolon && t.lexeme.isEmpty

/-- The kinds of the real tokens, the last one first. -/
def history (tokens : List Token) : List TokenKind :=
  ((tokens.filter Token.isReal).map Token.kind).reverse

/-- A statement can end here: the last token is a trigger, or a star right after a full stop. -/
def endsStatement : List TokenKind → Bool
  | .star :: .dot :: _ => true
  | kind :: _ => isAsiTrigger kind
  | [] => false

/-- How many gaps from here on are in the header of an `asm` expression. An arrow right after
    `asm` opens one, and its body closes it; the body of an `asm` statement does not. -/
def headerGaps : List TokenKind → Nat
  | [] => 0
  | .asmBlock :: .kwAsm :: before => headerGaps (.kwAsm :: before)
  | .asmBlock :: _ => 0
  | .arrow :: .kwAsm :: _ => asmHeaderTokenBudget - 1
  | _ :: before => headerGaps before - 1

/-- The law of the gaps between tokens. -/
structure GapLaw (text : List Char) (tokens : List Token) : Prop where
  between : ∀ before t mid t' after, tokens = before ++ t :: mid ++ t' :: after →
    t.isReal = true → t'.isReal = true → (∀ v ∈ mid, v.isReal = false) →
    headerGaps (history (before ++ [t])) = 0 →
    ((∃ v ∈ mid, v.isVirtual = true) ↔ endsStatement (history (before ++ [t])) = true ∧
      HasNewline text t.location.stop t'.location.offset)
  notAdjacent : ∀ before v v' after, tokens = before ++ v :: v' :: after →
    ¬ (v.isVirtual = true ∧ v'.isVirtual = true)

/-- The law of a whole file. -/
structure AsiLaw (text : List Char) (tokens : List Token) : Prop extends GapLaw text tokens where
  beforeEof : ∀ before t mid eof, tokens = before ++ t :: mid ++ [eof] →
    t.isReal = true → eof.kind = .eof → (∀ v ∈ mid, v.isReal = false) →
    ((∃ v ∈ mid, v.isVirtual = true) ↔ endsStatement (history (before ++ [t])) = true)

/-! ## Real tokens -/

theorem Token.not_isVirtual_of_isReal {t : Token} (h : t.isReal = true) : t.isVirtual = false := by
  rw [Token.isReal, Bool.and_eq_true, Bool.not_eq_true'] at h
  exact h.2

theorem Token.not_isReal_of_isVirtual {t : Token} (h : t.isVirtual = true) : t.isReal = false := by
  rw [Token.isVirtual] at h
  rw [Token.isReal, h, Bool.not_true, Bool.and_false]

theorem Token.forall_not_isReal {v : Token} (h : v.isVirtual = true) :
    ∀ u ∈ [v], u.isReal = false := by
  intro u hu
  rw [List.mem_singleton.mp hu]
  exact Token.not_isReal_of_isVirtual h

theorem history_real {tokens : List Token} {t : Token} (h : t.isReal = true) :
    history (tokens ++ [t]) = t.kind :: history tokens := by
  simp [history, h]

theorem history_of_not_isReal {tokens : List Token} {t : Token} (h : t.isReal = false) :
    history (tokens ++ [t]) = history tokens := by
  simp [history, h]

/-- The last real token of a list, and what is behind it. -/
theorem lastReal_unique {before before' mid mid' : List Token} {t t' : Token}
    (h : before ++ t :: mid = before' ++ t' :: mid') (ht : t.isReal = true)
    (ht' : t'.isReal = true) (hmid : ∀ v ∈ mid, v.isReal = false)
    (hmid' : ∀ v ∈ mid', v.isReal = false) : before = before' ∧ t = t' ∧ mid = mid' := by
  rcases List.append_eq_append_iff.mp h with ⟨between, rfl, hbetween⟩ | ⟨between, rfl, hbetween⟩
  · rcases between with _ | ⟨u, between⟩
    · obtain ⟨rfl, rfl⟩ := List.cons.inj hbetween
      exact ⟨(List.append_nil _).symm, rfl, rfl⟩
    · obtain ⟨rfl, rfl⟩ := List.cons.inj hbetween
      have hreal := hmid t' (List.mem_append_right _ List.mem_cons_self)
      rw [ht'] at hreal
      cases hreal
  · rcases between with _ | ⟨u, between⟩
    · obtain ⟨rfl, rfl⟩ := List.cons.inj hbetween
      exact ⟨List.append_nil _, rfl, rfl⟩
    · obtain ⟨rfl, rfl⟩ := List.cons.inj hbetween
      have hreal := hmid' t (List.mem_append_right _ List.mem_cons_self)
      rw [ht] at hreal
      cases hreal

/-! ## One more token -/

namespace GapLaw

variable {text : List Char} {tokens : List Token}

theorem nil : GapLaw text [] where
  between _ _ _ _ _ h := by simp at h
  notAdjacent _ _ _ _ h := by simp at h

/-- The gap before one more token is the only one that is new. -/
theorem snoc (h : GapLaw text tokens) {x : Token}
    (hgap : x.isReal = true → ∀ before t mid, tokens = before ++ t :: mid → t.isReal = true →
      (∀ v ∈ mid, v.isReal = false) → headerGaps (history (before ++ [t])) = 0 →
      ((∃ v ∈ mid, v.isVirtual = true) ↔ endsStatement (history (before ++ [t])) = true ∧
        HasNewline text t.location.stop x.location.offset))
    (hadjacent : x.isVirtual = true → ∀ before v, tokens = before ++ [v] → v.isVirtual = false) :
    GapLaw text (tokens ++ [x]) where
  between before t mid t' after hsplit ht ht' hmid hheader := by
    rcases List.eq_nil_or_concat after with rfl | ⟨after, last, rfl⟩
    · obtain ⟨htokens, hx⟩ := List.append_inj' hsplit rfl
      obtain rfl := List.cons.inj hx |>.1
      exact hgap ht' before t mid htokens ht hmid hheader
    · rw [List.concat_eq_append, ← List.cons_append, ← List.append_assoc] at hsplit
      exact h.between before t mid t' after (List.append_inj' hsplit rfl).1 ht ht' hmid hheader
  notAdjacent before v v' after hsplit := by
    rcases List.eq_nil_or_concat after with rfl | ⟨after, last, rfl⟩
    · have hsplit' : tokens ++ [x] = (before ++ [v]) ++ [v'] := by simpa using hsplit
      obtain ⟨htokens, hx⟩ := List.append_inj' hsplit' rfl
      obtain rfl := List.cons.inj hx |>.1
      rintro ⟨hv, hv'⟩
      rw [hadjacent hv' before v htokens] at hv
      cases hv
    · have hsplit' : tokens ++ [x] = (before ++ v :: v' :: after) ++ [last] := by simpa using hsplit
      exact h.notAdjacent before v v' after (List.append_inj' hsplit' rfl).1

end GapLaw

namespace Lexer

variable {text : List Char}

/-- What the flags of the lexer say about the gap that the cursor is in. -/
inductive Pending (l : Lexer text) : List Token → Prop
  | empty (htrigger : l.lastTokenIsAsiTrigger = false) : Pending l []
  | real {before : List Token} {t : Token} (hreal : t.isReal = true)
      (hends : l.lastTokenIsAsiTrigger = endsStatement (history (before ++ [t])))
      (hle : t.location.stop ≤ l.cursor.pos)
      (hquiet : l.lastTokenIsAsiTrigger = true → headerGaps (history (before ++ [t])) = 0 →
        ¬ HasNewline text t.location.stop l.cursor.pos) : Pending l (before ++ [t])
  | virtual {before : List Token} {t v : Token} (hreal : t.isReal = true)
      (hvirtual : v.isVirtual = true) (hends : endsStatement (history (before ++ [t])) = true)
      (htrigger : l.lastTokenIsAsiTrigger = false) (hle : t.location.stop ≤ l.cursor.pos)
      (hnewline : HasNewline text t.location.stop l.cursor.pos) :
      Pending l (before ++ t :: [v])

variable {l l' : Lexer text} {tokens : List Token}

/-- The bytes that a search for a block of assembler passes in a header do not matter. -/
theorem Pending.pass (h : l.Pending tokens)
    (htrigger : l'.lastTokenIsAsiTrigger = l.lastTokenIsAsiTrigger)
    (hle : l.cursor.pos ≤ l'.cursor.pos)
    (hheader : l.lastTokenIsAsiTrigger = true → headerGaps (history tokens) ≠ 0) :
    l'.Pending tokens := by
  cases h with
  | empty h => exact .empty (htrigger.trans h)
  | real hreal hends hle' _ =>
    refine .real hreal (htrigger.trans hends) (Nat.le_trans hle' hle) fun hdue hzero => ?_
    exact absurd hzero (hheader (htrigger ▸ hdue))
  | virtual hreal hvirtual hends hdue hle' hnewline =>
    exact .virtual hreal hvirtual hends (htrigger.trans hdue) (Nat.le_trans hle' hle)
      ((hasNewline_split hle' hle).mpr (.inl hnewline))

/-- A real token after the gap. -/
theorem Pending.gapLaw_real (h : l.Pending tokens) (hlaw : GapLaw text tokens) {t' : Token}
    (ht' : t'.isReal = true) (hle : l.cursor.pos ≤ t'.location.offset)
    (hquiet : l.lastTokenIsAsiTrigger = true → headerGaps (history tokens) = 0 →
      ¬ HasNewline text l.cursor.pos t'.location.offset) : GapLaw text (tokens ++ [t']) := by
  refine hlaw.snoc (fun _ before t mid hsplit ht hmid hheader => ?_) fun hvirtual => ?_
  · cases h with
    | empty => simp at hsplit
    | @real before₀ t₀ hreal hends hle' hquiet' =>
      obtain ⟨rfl, rfl, rfl⟩ := lastReal_unique hsplit hreal ht (List.forall_mem_nil _) hmid
      refine ⟨fun hmem => by simp at hmem, fun hnewline => ?_⟩
      have hdue := hends.trans hnewline.1
      rcases (hasNewline_split hle' hle).mp hnewline.2 with h | h
      · exact absurd h (hquiet' hdue hheader)
      · exact absurd h (hquiet hdue hheader)
    | @virtual before₀ t₀ v hreal hvirtual hends _ hle' hnewline =>
      obtain ⟨rfl, rfl, rfl⟩ :=
        lastReal_unique hsplit hreal ht (Token.forall_not_isReal hvirtual) hmid
      exact iff_of_true ⟨v, List.mem_singleton_self v, hvirtual⟩
        ⟨hends, (hasNewline_split hle' hle).mpr (.inl hnewline)⟩
  · rw [Token.not_isVirtual_of_isReal ht'] at hvirtual
    cases hvirtual

/-- A virtual semicolon after the gap. -/
theorem Pending.gapLaw_virtual (h : l.Pending tokens) (hlaw : GapLaw text tokens)
    (hdue : l.lastTokenIsAsiTrigger = true) {v : Token} (hv : v.isVirtual = true) :
    GapLaw text (tokens ++ [v]) := by
  refine hlaw.snoc (fun hreal => ?_) fun _ before v' hsplit => ?_
  · rw [Token.not_isReal_of_isVirtual hv] at hreal
    cases hreal
  · cases h with
    | empty => simp at hsplit
    | real hreal =>
      obtain ⟨-, ht⟩ := List.append_inj' hsplit rfl
      obtain rfl := (List.cons.inj ht).1
      exact Token.not_isVirtual_of_isReal hreal
    | virtual _ _ _ htrigger =>
      rw [htrigger] at hdue
      cases hdue

/-- The end of the file after the gap, behind the virtual semicolon that may be due. -/
theorem Pending.asiLaw_eof (h : l.Pending tokens) (hlaw : GapLaw text tokens) {eof : Token}
    (heof : eof.kind = .eof) {v : Token} (hv : v.isVirtual = true) :
    AsiLaw text (tokens ++
      ((if l.lastTokenIsAsiTrigger = true then [v] else []) ++ [eof])) := by
  have hgap : GapLaw text (tokens ++ if l.lastTokenIsAsiTrigger = true then [v] else []) := by
    split_ifs with hdue
    · exact h.gapLaw_virtual hlaw hdue hv
    · rwa [List.append_nil]
  rw [← List.append_assoc]
  refine ⟨hgap.snoc (fun hreal => ?_) fun hvirtual => ?_, fun before t mid eof' hsplit ht _ hmid => ?_⟩
  · simp [Token.isReal, heof] at hreal
  · simp [Token.isVirtual, heof] at hvirtual
  · have hsplit' := (List.append_inj' hsplit rfl).1
    cases h with
    | empty htrigger => simp [htrigger] at hsplit'
    | @real before₀ t₀ hreal hends =>
      rw [List.append_assoc, List.singleton_append] at hsplit'
      have hvs : ∀ u ∈ (if l.lastTokenIsAsiTrigger = true then [v] else []), u.isReal = false := by
        split_ifs
        · exact Token.forall_not_isReal hv
        · exact List.forall_mem_nil _
      obtain ⟨rfl, rfl, rfl⟩ := lastReal_unique hsplit' hreal ht hvs hmid
      rw [← hends]
      split_ifs with hdue
      · exact iff_of_true ⟨v, List.mem_singleton_self v, hv⟩ hdue
      · exact iff_of_false (by simp) hdue
    | @virtual before₀ t₀ v₀ hreal hvirtual hends htrigger =>
      rw [htrigger, if_neg Bool.false_ne_true, List.append_nil] at hsplit'
      obtain ⟨rfl, rfl, rfl⟩ :=
        lastReal_unique hsplit' hreal ht (Token.forall_not_isReal hvirtual) hmid
      exact iff_of_true ⟨v₀, List.mem_singleton_self v₀, hvirtual⟩ hends

end Lexer

/-! ## Headers -/

/-- A token that the sub-lexers read takes one gap of a header, or opens one. -/
theorem headerGaps_plain {kind : TokenKind} (hplain : kind.isPlain = true)
    (before : List TokenKind) :
    headerGaps (kind :: before) =
      if kind = .arrow ∧ before.head? = some .kwAsm then asmHeaderTokenBudget - 1
      else headerGaps before - 1 := by
  have hasm : kind ≠ .asmBlock := by
    rintro rfl
    cases hplain
  by_cases harrow : kind = .arrow
  · subst harrow
    rcases before with _ | ⟨prev, before⟩
    · rfl
    · by_cases hprev : prev = .kwAsm
      · subst hprev
        rfl
      · rw [if_neg (by simpa using hprev)]
        simp [headerGaps, hprev]
  · rw [if_neg (fun h => harrow h.1)]
    simp [headerGaps, hasm, harrow]

theorem headerGaps_asmBlock {before : List TokenKind} (h : before.head? ≠ some .kwAsm) :
    headerGaps (.asmBlock :: before) = 0 := by
  rcases before with _ | ⟨prev, before⟩
  · rfl
  · simp [headerGaps, show prev ≠ .kwAsm by simpa using h]

theorem headerGaps_asmBlock_kwAsm {before : List TokenKind} (h : before.head? = some .kwAsm) :
    headerGaps (.asmBlock :: before) = headerGaps before := by
  obtain ⟨before, rfl⟩ := List.head?_eq_some_iff.mp h
  rfl

theorem endsStatement_cons (kind : TokenKind) (before : List TokenKind) :
    endsStatement (kind :: before) =
      (isAsiTrigger kind || kind == .star && before.head? == some .dot) := by
  by_cases hstar : kind = .star
  · subst hstar
    rcases before with _ | ⟨prev, before⟩
    · rfl
    · by_cases hdot : prev = .dot
      · subst hdot
        rfl
      · simp [endsStatement, hdot]
  · simp [endsStatement, hstar]

theorem endsStatement_dot {before : List TokenKind} (h : before.head? = some .dot) :
    endsStatement before = false := by
  obtain ⟨before, rfl⟩ := List.head?_eq_some_iff.mp h
  rfl

theorem endsStatement_kwAsm {before : List TokenKind} (h : before.head? = some .kwAsm) :
    endsStatement before = false := by
  obtain ⟨before, rfl⟩ := List.head?_eq_some_iff.mp h
  rfl

/-! ## The search for a block of assembler -/

namespace Scan

variable {text : List Char} {filename : String}

variable (filename) in
/-- What comes of the search if nothing is reported: there is no brace here, or a block is
    read. -/
theorem lexAsmBlock_clean (s : Scan text) (hclean : (s.lexAsmBlock filename).2.Clean) :
    s.Clean ∧
      ((s.lexAsmBlock filename = (none, (s.skipWhitespaceAndComments filename).2) ∧
          (s.skipWhitespaceAndComments filename).2.cursor.rest.head? ≠ some '{') ∨
        ∃ block s', s.lexAsmBlock filename = (some block, s') ∧ block.kind = .asmBlock ∧
          block.location.offset = (s.skipWhitespaceAndComments filename).2.cursor.pos ∧
          block.location.stop ≤ s'.cursor.pos ∧
          ¬ HasNewline text block.location.stop s'.cursor.pos ∧
          (s.skipWhitespaceAndComments filename).2.cursor.rest.head? = some '{') := by
  have hskip : Passes s (s.skipWhitespaceAndComments filename).2 :=
    passes_skipWhitespaceAndComments s
  have hcases := lexesAsm filename s
  by_cases hopen : (s.skipWhitespaceAndComments filename).2.cursor.rest.head? = some '{'
  · generalize hblock : s.lexAsmBlock filename = result at *
    cases hcases with
    | none =>
      -- a brace is never left where it is
      rw [lexAsmBlock] at hblock
      dsimp only at hblock
      rw [if_pos hopen] at hblock
      split_ifs at hblock
      · have hpos := congrArg (fun result => result.2.cursor.pos) hblock
        obtain ⟨rest, hrest⟩ := List.head?_eq_some_iff.mp hopen
        have hle := pos_le_asmBody 1 (s.skipWhitespaceAndComments filename).2.cursor.advance
        rw [(Cursor.advance_of_cons hrest).2] at hle
        exact absurd (Nat.le_of_eq hpos) (Nat.not_le.mpr hle)
      · exact absurd (congrArg Prod.fst hblock) (by simp)
    | unterminated => exact absurd hclean (not_clean_reportError _ _ _)
    | @block start stop rest hstart hlt hclose =>
      subst hstart
      refine ⟨hskip.clean hclean, .inr ⟨_, _, rfl, rfl, rfl, ?_, ?_, hopen⟩⟩
      · rw [stop_makeRange filename hlt]
        exact stop.pos_le_advance
      · rw [stop_makeRange filename hlt]
        exact fun h => absurd ((hasNewline_advance hclose).mp h) (by decide)
  · have hnone : s.lexAsmBlock filename = (none, (s.skipWhitespaceAndComments filename).2) := by
      rw [lexAsmBlock]
      exact if_neg hopen
    rw [hnone] at hclean
    exact ⟨hskip.clean hclean, .inl ⟨hnone, hopen⟩⟩

/-- The two bytes of an arrow. -/
theorem arrow_iff (s : Scan text) :
    (s.peek = '-' ∧ s.peekNext = '>') ↔ ['-', '>'] <+: s.cursor.rest := by
  rw [peek, peekNext]
  rcases s.cursor.rest with _ | ⟨ch, _ | ⟨ch', rest⟩⟩
  · simp
  · simp
  · simp [List.cons_prefix_cons, eq_comm]

end Scan

namespace Lexer

variable {text : List Char} {filename : String} {tokens : List Token} {l : Lexer text}

/-- The gaps that are left in a header, as the lexer counts them. -/
def gapsLeft (l : Lexer text) : Nat :=
  if l.awaitingAsmExprBody = true then l.asmHeaderBudget else 0

variable (filename) in
/-- What the lexer knows of its tokens between two turns. Behind `asm`, whitespace and comments
    have been skipped and no body has been found. -/
structure Follows (tokens : List Token) (l : Lexer text) : Prop where
  law : GapLaw text tokens
  pending : l.Pending tokens
  dot : l.lastRealKind = some .dot ↔ (history tokens).head? = some .dot
  budget : l.awaitingAsmExprBody = true → 0 < l.asmHeaderBudget
  gaps : (history tokens).head? ≠ some .kwAsm → l.gapsLeft = headerGaps (history tokens)
  asm : (history tokens).head? = some .kwAsm → l.toScan.Settled filename ∧
    l.cursor.rest.head? ≠ some '{' ∧ l.gapsLeft =
      if ['-', '>'] <+: l.cursor.rest then asmHeaderTokenBudget else headerGaps (history tokens)

variable (filename) in
/-- What it knows before a token is read. In a header, whitespace and comments have been
    skipped. -/
structure Searched (tokens : List Token) (l : Lexer text) : Prop where
  law : GapLaw text tokens
  pending : l.Pending tokens
  dot : l.lastRealKind = some .dot ↔ (history tokens).head? = some .dot
  budget : l.awaitingAsmExprBody = true → 0 < l.asmHeaderBudget
  next : ∀ kind : TokenKind, kind.isPlain = true → (kind = .arrow ↔
      ['-', '>'] <+: (l.toScan.skipWhitespaceAndComments filename).2.cursor.rest) →
    l.gapsLeft = headerGaps (kind :: history tokens)
  idle : l.toScan.Settled filename ∨ (l.gapsLeft = 0 ∧ headerGaps (history tokens) = 0)

theorem Pending.ends (h : l.Pending tokens) (hdue : l.lastTokenIsAsiTrigger = true) :
    endsStatement (history tokens) = true := by
  cases h with
  | empty htrigger =>
    rw [htrigger] at hdue
    cases hdue
  | real _ hends => rwa [← hends]
  | virtual _ _ _ htrigger =>
    rw [htrigger] at hdue
    cases hdue

/-- A block of assembler was read. -/
theorem follows_rememberAsm {l' : Lexer text} (hlaw : GapLaw text tokens)
    (hpending : l.Pending tokens) {block : Token} (hkind : block.kind = .asmBlock)
    (hle : l.cursor.pos ≤ block.location.offset)
    (hquiet : l.lastTokenIsAsiTrigger = true → headerGaps (history tokens) = 0 →
      ¬ HasNewline text l.cursor.pos block.location.offset)
    (hstop : block.location.stop ≤ l'.cursor.pos)
    (hnewline : ¬ HasNewline text block.location.stop l'.cursor.pos)
    (hbudget : l'.awaitingAsmExprBody = true → 0 < l'.asmHeaderBudget)
    (hgaps : l'.gapsLeft = headerGaps (.asmBlock :: history tokens)) :
    Follows filename (tokens ++ [block]) (l'.rememberAsm filename) := by
  have hreal : block.isReal = true := by simp [Token.isReal, hkind]
  have hhistory : history (tokens ++ [block]) = .asmBlock :: history tokens := by
    rw [history_real hreal, hkind]
  constructor
  · exact hpending.gapLaw_real hlaw hreal hle hquiet
  · refine .real hreal ?_ hstop fun _ _ => hnewline
    rw [hhistory]
    rfl
  · rw [hhistory]
    exact iff_of_false (by simp [rememberAsm]) (by simp)
  · exact hbudget
  · intro _
    rw [hhistory, ← hgaps]
    rfl
  · rw [hhistory]
    intro h
    simp at h

/-- A gap that the lexer counts is one of a header, or the one behind the keyword. -/
theorem Follows.header (h : l.Follows filename tokens) (hpos : 0 < l.gapsLeft)
    (hdue : l.lastTokenIsAsiTrigger = true) : headerGaps (history tokens) ≠ 0 := by
  intro hzero
  by_cases hkwAsm : (history tokens).head? = some .kwAsm
  · have hends := h.pending.ends hdue
    rw [endsStatement_kwAsm hkwAsm] at hends
    cases hends
  · have := h.gaps hkwAsm
    omega

/-- No body was found in a header, which has one gap less. -/
theorem Follows.searched (h : l.Follows filename tokens) {l₁ : Lexer text}
    (hscan : l₁.toScan = (l.toScan.skipWhitespaceAndComments filename).2)
    (htrigger : l₁.lastTokenIsAsiTrigger = l.lastTokenIsAsiTrigger)
    (hlast : l₁.lastRealKind = l.lastRealKind)
    (hbudget : l₁.awaitingAsmExprBody = true → 0 < l₁.asmHeaderBudget)
    (hpos : 0 < l.gapsLeft) (hleft : l₁.gapsLeft = l.gapsLeft - 1) :
    l₁.Searched filename tokens := by
  have hskip : Scan.Passes l.toScan (l.toScan.skipWhitespaceAndComments filename).2 :=
    Scan.passes_skipWhitespaceAndComments l.toScan
  have hsettled : l₁.toScan.Settled filename := hscan ▸ Scan.settled_skipLoop false l.toScan
  constructor
  · exact h.law
  · exact h.pending.pass htrigger (hscan ▸ hskip.pos_le) (h.header hpos)
  · exact hlast ▸ h.dot
  · exact hbudget
  · intro kind hplain harrow
    rw [hleft, headerGaps_plain hplain]
    rw [hsettled.skip, hscan] at harrow
    by_cases hkwAsm : (history tokens).head? = some .kwAsm
    · obtain ⟨hsettled', -, hgaps⟩ := h.asm hkwAsm
      rw [hsettled'.skip] at harrow
      rw [hgaps]
      by_cases hpre : ['-', '>'] <+: l.cursor.rest
      · rw [if_pos hpre, if_pos ⟨harrow.mpr hpre, hkwAsm⟩]
      · rw [if_neg hpre, if_neg fun h => hpre (harrow.mp h.1)]
    · rw [h.gaps hkwAsm, if_neg fun h => hkwAsm h.2]
  · exact .inl hsettled

/-- Outside a header there is no search. -/
theorem Follows.idle (h : l.Follows filename tokens) (hzero : l.gapsLeft = 0) :
    l.Searched filename tokens := by
  refine ⟨h.law, h.pending, h.dot, h.budget, fun kind hplain harrow => ?_, .inr ⟨hzero, ?_⟩⟩
  · rw [hzero, headerGaps_plain hplain]
    by_cases hkwAsm : (history tokens).head? = some .kwAsm
    · obtain ⟨hsettled, -, hgaps⟩ := h.asm hkwAsm
      rw [hsettled.skip] at harrow
      rw [hzero] at hgaps
      split_ifs at hgaps with hpre
      · exact absurd hgaps (by decide)
      · rw [if_neg fun h => hpre (harrow.mp h.1), ← hgaps]
    · rw [if_neg fun h => hkwAsm h.2, ← h.gaps hkwAsm, hzero]
  · by_cases hkwAsm : (history tokens).head? = some .kwAsm
    · obtain ⟨-, -, hgaps⟩ := h.asm hkwAsm
      rw [hzero] at hgaps
      split_ifs at hgaps
      · exact absurd hgaps (by decide)
      · exact hgaps.symm
    · rw [← h.gaps hkwAsm, hzero]

/-- The search for the body of an `asm` expression. -/
theorem Follows.retry (h : l.Follows filename tokens)
    (hclean : (l.retryAsmBlock filename).2.toScan.Clean) :
    (∃ l₁, l.retryAsmBlock filename = (none, l₁) ∧ l₁.Searched filename tokens) ∨
      ∃ block l₁, l.retryAsmBlock filename = (some block, l₁) ∧
        l₁.Follows filename (tokens ++ [block]) := by
  rw [retryAsmBlock] at hclean ⊢
  by_cases hawaiting : l.awaitingAsmExprBody = true
  · rw [if_pos hawaiting] at hclean ⊢
    have hgapsLeft : l.gapsLeft = l.asmHeaderBudget := if_pos hawaiting
    have hpos : 0 < l.gapsLeft := hgapsLeft ▸ h.budget hawaiting
    have hblockClean : (l.toScan.lexAsmBlock filename).2.Clean := by
      rcases hblock : l.toScan.lexAsmBlock filename with ⟨_ | token, s⟩
      · rw [hblock] at hclean
        exact hclean
      · rw [hblock] at hclean
        exact hclean
    obtain ⟨-, ⟨hnone, -⟩ | ⟨block, s', hsome, hkind, hoffset, hstop, hnewline, hopen⟩⟩ :=
      l.toScan.lexAsmBlock_clean filename hblockClean
    · rw [hnone]
      refine .inl ⟨_, rfl, h.searched rfl rfl rfl ?_ hpos ?_⟩
      · intro hleft
        have hne : ¬ l.asmHeaderBudget - 1 = 0 := by simpa [hawaiting] using hleft
        exact Nat.pos_of_ne_zero hne
      · rw [hgapsLeft, gapsLeft]
        dsimp only
        rw [hawaiting, Bool.true_and]
        split_ifs with hleft
        · rfl
        · have hend : l.asmHeaderBudget - 1 = 0 := by simpa using hleft
          exact hend.symm
    · rw [hsome]
      refine .inr ⟨block, _, rfl, ?_⟩
      have hskip : Scan.Passes l.toScan (l.toScan.skipWhitespaceAndComments filename).2 :=
        Scan.passes_skipWhitespaceAndComments l.toScan
      have hkwAsm : (history tokens).head? ≠ some .kwAsm := by
        intro hkwAsm
        obtain ⟨hsettled, hclosed, -⟩ := h.asm hkwAsm
        rw [hsettled.skip] at hopen
        exact hclosed hopen
      refine follows_rememberAsm h.law h.pending hkind (hoffset ▸ hskip.pos_le)
        (fun hdue hzero => absurd hzero (h.header hpos hdue)) hstop hnewline ?_ ?_
      · intro hfalse
        cases hfalse
      · rw [headerGaps_asmBlock hkwAsm]
        rfl
  · rw [if_neg hawaiting] at hclean ⊢
    exact .inl ⟨l, rfl, h.idle (if_neg hawaiting)⟩

/-! ## One token -/

variable (filename) in
/-- What it knows when a token has just been read. -/
structure Counted (tokens : List Token) (l : Lexer text) : Prop where
  law : GapLaw text tokens
  pending : l.Pending tokens
  dot : l.lastRealKind = some .dot ↔ (history tokens).head? = some .dot
  budget : l.awaitingAsmExprBody = true → 0 < l.asmHeaderBudget
  gaps : l.gapsLeft = headerGaps (history tokens)

/-- After any token but the keyword `asm`, the turn is over. -/
theorem Counted.follows (h : l.Counted tokens)
    (hkwAsm : (history tokens).head? ≠ some .kwAsm) : l.Follows filename tokens :=
  ⟨h.law, h.pending, h.dot, h.budget, fun _ => h.gaps, fun heq => absurd heq hkwAsm⟩

/-- A virtual semicolon. There is none in a header, where nothing is left to skip. -/
theorem Searched.virtual (h : l.Searched filename tokens)
    (hdue : l.lastTokenIsAsiTrigger = true)
    (hnewline : HasNewline text l.cursor.pos
      (l.toScan.skipWhitespaceAndComments filename).2.cursor.pos) :
    Counted (tokens ++ [l.virtualSemicolon])
      { l with
        toScan := (l.toScan.skipWhitespaceAndComments filename).2
        lastRealKind := some .semicolon
        lastTokenIsAsiTrigger := false } := by
  have hskip : Scan.Passes l.toScan (l.toScan.skipWhitespaceAndComments filename).2 :=
    Scan.passes_skipWhitespaceAndComments l.toScan
  have hends := h.pending.ends hdue
  have hhistory : history (tokens ++ [l.virtualSemicolon]) = history tokens :=
    history_of_not_isReal rfl
  rcases h.idle with hsettled | ⟨hleft, hzero⟩
  · rw [hsettled.skip] at hnewline
    exact absurd hnewline not_hasNewline_self
  · constructor
    · exact h.pending.gapLaw_virtual h.law hdue rfl
    · have hpending := h.pending
      cases hpending with
      | empty htrigger =>
        rw [htrigger] at hdue
        cases hdue
      | @real before t hreal _ hle =>
        rw [List.append_assoc]
        exact .virtual hreal rfl hends rfl (Nat.le_trans hle hskip.pos_le)
          ((hasNewline_split hle hskip.pos_le).mpr (.inr hnewline))
      | virtual _ _ _ htrigger =>
        rw [htrigger] at hdue
        cases hdue
    · rw [hhistory]
      refine iff_of_false (by simp) fun hdot => ?_
      rw [endsStatement_dot hdot] at hends
      cases hends
    · exact h.budget
    · rw [hhistory, hzero]
      exact hleft

/-- A token that a sub-lexer reads. -/
theorem Searched.token (h : l.Searched filename tokens) {kind : TokenKind} {s : Scan text}
    (hplain : kind.isPlain = true)
    (hquiet : l.lastTokenIsAsiTrigger = true → ¬ HasNewline text l.cursor.pos
      (l.toScan.skipWhitespaceAndComments filename).2.cursor.pos)
    (harrow : kind = .arrow ↔
      ['-', '>'] <+: (l.toScan.skipWhitespaceAndComments filename).2.cursor.rest)
    (hlt : (l.toScan.skipWhitespaceAndComments filename).2.cursor.pos < s.cursor.pos) :
    Counted (tokens ++ [makeToken filename kind
      (l.toScan.skipWhitespaceAndComments filename).2.cursor s.cursor])
      ({ l with toScan := s }.remember filename kind) := by
  have hskip : Scan.Passes l.toScan (l.toScan.skipWhitespaceAndComments filename).2 :=
    Scan.passes_skipWhitespaceAndComments l.toScan
  have hreal := isReal_makeToken filename hplain hlt
  have hhistory : history (tokens ++ [makeToken filename kind
      (l.toScan.skipWhitespaceAndComments filename).2.cursor s.cursor]) =
      kind :: history tokens := history_real hreal
  have hstop := stop_makeRange filename hlt
  constructor
  · exact h.pending.gapLaw_real h.law hreal hskip.pos_le fun hdue _ => hquiet hdue
  · refine .real hreal ?_ (Nat.le_of_eq hstop) fun _ _ hnewline => ?_
    · rw [hhistory, endsStatement_cons]
      have hdot : (l.lastRealKind == some .dot) = ((history tokens).head? == some .dot) := by
        rw [Bool.eq_iff_iff, beq_iff_eq, beq_iff_eq]
        exact h.dot
      rw [← hdot]
      rfl
    · rw [show (makeToken filename kind _ s.cursor).location.stop = s.cursor.pos from hstop]
        at hnewline
      exact not_hasNewline_self hnewline
  · rw [hhistory]
    simp [remember]
  · exact h.budget
  · rw [hhistory]
    exact h.next kind hplain harrow

theorem clean_of_afterAsm (hclean : (l.afterAsm filename).2.toScan.Clean) :
    (l.toScan.lexAsmBlock filename).2.Clean := by
  rw [Lexer.afterAsm] at hclean
  rcases hblock : l.toScan.lexAsmBlock filename with ⟨_ | token, s⟩
  · rw [hblock] at hclean
    dsimp only at hclean
    split_ifs at hclean
    · exact hclean
    · exact hclean
  · rw [hblock] at hclean
    exact hclean

/-- After the keyword `asm`: the body of a statement, or the start of a header. -/
theorem Counted.afterAsm (h : l.Counted tokens) (hkwAsm : (history tokens).head? = some .kwAsm)
    (hclean : (l.afterAsm filename).2.toScan.Clean) :
    (l.afterAsm filename).2.Follows filename (tokens ++ (l.afterAsm filename).1.toList) := by
  have hdue : l.lastTokenIsAsiTrigger ≠ true := by
    intro hdue
    have hends := h.pending.ends hdue
    rw [endsStatement_kwAsm hkwAsm] at hends
    cases hends
  have hskip : Scan.Passes l.toScan (l.toScan.skipWhitespaceAndComments filename).2 :=
    Scan.passes_skipWhitespaceAndComments l.toScan
  have hblockClean := clean_of_afterAsm hclean
  rw [Lexer.afterAsm]
  obtain ⟨-, ⟨hnone, hopen⟩ | ⟨block, s', hsome, hkind, hoffset, hstop, hnewline, -⟩⟩ :=
    l.toScan.lexAsmBlock_clean filename hblockClean
  · rw [hnone]
    have hsettled : (l.toScan.skipWhitespaceAndComments filename).2.Settled filename :=
      Scan.settled_skipLoop false l.toScan
    have harrowPrefix := Scan.arrow_iff (l.toScan.skipWhitespaceAndComments filename).2
    dsimp only
    split_ifs with harrow
    · rw [Option.toList_none, List.append_nil]
      refine ⟨h.law, h.pending.pass rfl hskip.pos_le fun hdue' => absurd hdue' hdue, h.dot,
        fun _ => Nat.succ_pos _, fun hne => absurd hkwAsm hne,
        fun _ => ⟨hsettled, hopen, ?_⟩⟩
      rw [if_pos (harrowPrefix.mp harrow)]
      rfl
    · rw [Option.toList_none, List.append_nil]
      refine ⟨h.law, h.pending.pass rfl hskip.pos_le fun hdue' => absurd hdue' hdue, h.dot,
        h.budget, fun hne => absurd hkwAsm hne,
        fun _ => ⟨hsettled, hopen, ?_⟩⟩
      rw [if_neg fun hpre => harrow (harrowPrefix.mpr hpre)]
      exact h.gaps
  · rw [hsome]
    refine follows_rememberAsm h.law h.pending hkind (hoffset ▸ hskip.pos_le)
      (fun hdue' => absurd hdue' hdue) hstop hnewline h.budget ?_
    rw [headerGaps_asmBlock_kwAsm hkwAsm]
    exact h.gaps

/-! ## The loop -/

/-- The next token, if it is not the end of the file. -/
theorem Searched.reads (h : l.Searched filename tokens) {token : Token} {l₂ : Lexer text}
    (hread : Reads filename l (l.toScan.skipWhitespaceAndComments filename).2 (some token, l₂))
    (heof : token.kind ≠ .eof) :
    Counted (tokens ++ [token]) l₂ ∧
      ((history (tokens ++ [token])).head? = some .kwAsm ↔ token.kind = .kwAsm) := by
  cases hread with
  | virtual hdue hnewline =>
    refine ⟨h.virtual hdue hnewline, ?_⟩
    rw [history_of_not_isReal rfl]
    refine iff_of_false (fun hkwAsm => ?_) fun hkind => by cases hkind
    have hends := h.pending.ends hdue
    rw [endsStatement_kwAsm hkwAsm] at hends
    cases hends
  | eof => exact absurd rfl heof
  | token hplain hquiet harrow hlt =>
    refine ⟨h.token hplain hquiet harrow hlt, ?_⟩
    rw [history_real (isReal_makeToken filename hplain hlt), List.head?_cons, Option.some_inj]

theorem Reads.trigger_of_eof {skipped : Scan text} {token : Token} {l' : Lexer text}
    (h : Reads filename l skipped (some token, l')) (heof : token.kind = .eof) :
    l'.lastTokenIsAsiTrigger = l.lastTokenIsAsiTrigger := by
  cases h with
  | virtual => cases heof
  | eof => rfl
  | @token kind s hplain =>
    rw [show kind = .eof from heof] at hplain
    cases hplain

variable (filename) in
/-- After a turn of the loop, the law of the gaps goes on, or the file ends. -/
def Continues (tokens : List Token) (next : Turn text) : Prop :=
  if next.done = true then AsiLaw text (tokens ++ next.tokens)
  else next.lexer.Follows filename (tokens ++ next.tokens)

/-- One turn of the loop, if nothing is reported. -/
theorem Follows.turn (h : l.Follows filename tokens)
    (hclean : (l.turn filename).lexer.toScan.Clean) :
    Continues filename tokens (l.turn filename) := by
  rw [Lexer.turn] at hclean ⊢
  rcases hretry : l.retryAsmBlock filename with ⟨_ | block, l₁⟩
  · rw [hretry] at hclean
    dsimp only at hclean ⊢
    rcases hlex : l₁.lexToken filename with ⟨_ | token, l₂⟩
    · rw [hlex] at hclean
      obtain ⟨hread, -⟩ := Lexer.reads filename l₁ (hlex ▸ hclean)
      rw [hlex] at hread
      cases hread
    · rw [hlex] at hclean
      dsimp only at hclean ⊢
      have hclean₂ : l₂.toScan.Clean := by
        split_ifs at hclean
        · exact hclean
        · exact hclean
        · exact (Scan.lexAsmBlock_clean filename _ (clean_of_afterAsm hclean)).1
        · exact hclean
      obtain ⟨hread, hclean₁⟩ := Lexer.reads filename l₁ (hlex ▸ hclean₂)
      rw [hlex] at hread
      rcases h.retry (hretry ▸ hclean₁) with ⟨l', hnone, hsearched⟩ | ⟨block, l', hsome, -⟩
      · rw [hretry] at hnone
        obtain rfl := congrArg Prod.snd hnone
        by_cases heof : token.kind = .eof
        · have hlaw := hsearched.pending.asiLaw_eof hsearched.law heof
            (show l₂.virtualSemicolon.isVirtual = true from rfl)
          rw [if_pos heof, hread.trigger_of_eof heof]
          split_ifs with hdue
          · rw [if_pos hdue] at hlaw
            exact hlaw
          · rw [if_neg hdue] at hlaw
            exact hlaw
        · obtain ⟨hcounted, hiff⟩ := hsearched.reads hread heof
          rw [if_neg heof] at hclean ⊢
          split_ifs at hclean ⊢ with hkind
          · have hfollows := hcounted.afterAsm (hiff.mpr hkind) hclean
            rwa [List.append_assoc] at hfollows
          · exact hcounted.follows fun hkwAsm => hkind (hiff.mp hkwAsm)
      · rw [hretry] at hsome
        exact absurd (congrArg Prod.fst hsome) (by simp)
  · rw [hretry] at hclean
    dsimp only at hclean ⊢
    rcases h.retry (hretry ▸ hclean) with ⟨l', hnone, -⟩ | ⟨block', l', hsome, hfollows⟩
    · rw [hretry] at hnone
      exact absurd (congrArg Prod.fst hnone) (by simp)
    · rw [hretry] at hsome
      obtain ⟨hblock, rfl⟩ := Prod.mk.inj hsome
      obtain rfl := Option.some.inj hblock
      exact hfollows

theorem Follows.tokenizeLoop (h : l.Follows filename tokens)
    (hclean : (l.tokenizeLoop filename tokens).2.diagnostics = []) :
    AsiLaw text (l.tokenizeLoop filename tokens).1 := by
  fun_induction Lexer.tokenizeLoop filename l tokens with
  | case1 l tokens next hdone =>
    have hturn : Continues filename tokens next := h.turn hclean
    rwa [Continues, if_pos hdone] at hturn
  | case2 l tokens next hdone ih =>
    have hturn : Continues filename tokens next := h.turn (clean_of_tokenizeLoop hclean)
    rw [Continues, if_neg hdone] at hturn
    exact ih hturn hclean

theorem follows_init (text : List Char) (diagnostics : DiagnosticEngine) :
    (Lexer.init text diagnostics).Follows filename [] where
  law := .nil
  pending := .empty rfl
  dot := iff_of_false (by simp [Lexer.init]) (by simp [history])
  budget := fun hfalse => by cases hfalse
  gaps := fun _ => rfl
  asm := fun hkwAsm => by simp [history] at hkwAsm

end Lexer

/-- The law of virtual semicolons: in a file that the lexer has nothing to say about, they are
    where a line ends that can end a statement, and before the end of the file. -/
theorem asiLaw_tokenize (text : List Char) (filename : String)
    (hclean : (tokenize text filename ⟨[]⟩).2.diagnostics = []) :
    AsiLaw text (tokenize text filename ⟨[]⟩).1 :=
  (Lexer.follows_init text ⟨[]⟩).tokenizeLoop hclean

/-- Statements, comments, a pointer that is read, and a header with a line feed in it. -/
def statements : List Char :=
  "a /* 
 */ b // c
p.*
x := asm ->
rax
{ nop }
(y)".toList

theorem asiLaw_statements :
    (tokenize statements "a.mi" ⟨[]⟩).2.diagnostics = [] ∧
      AsiLaw statements (tokenize statements "a.mi" ⟨[]⟩).1 := by
  have hclean : (tokenize statements "a.mi" ⟨[]⟩).2.diagnostics = [] := by decide +kernel
  exact ⟨hclean, asiLaw_tokenize statements "a.mi" hclean⟩

end Mirage.Syntax
