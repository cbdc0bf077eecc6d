import Mathlib.Data.Nat.Digits.Defs
import Mirage.Syntax.Expr
import Mirage.Syntax.LexerKinds

/-!
# Integer literals

The lexer decides where an integer literal ends, and the parser reads the digits of the lexeme
again. What both have to agree on is `Denotes`: a lexeme is a prefix for a base and the digits of a
number in that base, with separators between them.

* `accumulate_eq`: the sum of the parser is the number if it fits, and nothing otherwise;
* `isLiteral_of_mem_tokenize`: the lexemes of the lexer have a base and digits of it;
* `parse_of_denotes`: what the parser makes of a lexeme that denotes a number.
-/

namespace Mirage.Syntax

/-- The digits in the order of their values. -/
def lowerDigits : List Char := "0123456789abcdef".toList

def upperDigits : List Char := "0123456789ABCDEF".toList

/-- A digit of a base with its value. -/
def IsDigitOf (base : Nat) (ch : Char) (d : Nat) : Prop :=
  d < base ∧ (lowerDigits[d]? = some ch ∨ upperDigits[d]? = some ch)

instance (base : Nat) (ch : Char) (d : Nat) : Decidable (IsDigitOf base ch d) :=
  inferInstanceAs (Decidable (_ ∧ _))

/-- The prefixes of a literal and their bases. -/
def basePrefixes : List (List Char × Nat) :=
  [(['0', 'x'], 16), (['0', 'X'], 16), (['0', 'b'], 2), (['0', 'B'], 2), (['0', 'o'], 8),
    (['0', 'O'], 8), ([], 10)]

/-- The number that a lexeme denotes: that of the digits behind the prefix, without separators. -/
def Denotes (lexeme : List Char) (n : Nat) : Prop :=
  ∃ entry ∈ basePrefixes, ∃ body ds, lexeme = entry.1 ++ body ∧
    List.Forall₂ (IsDigitOf entry.2) (body.filter (· ≠ '_')) ds ∧ n = Nat.ofDigits entry.2 ds.reverse

/-! ## The digits -/

/-- What a check of all digits below `n` finds is so of every digit. -/
theorem IsDigitOf.of_all (P : Nat → Char → Prop) [∀ d ch, Decidable (P d ch)] {n base d : Nat}
    {ch : Char} (h : IsDigitOf base ch d) (hbase : base ≤ n)
    (hall : (List.range n).all (fun d =>
      ((lowerDigits[d]?).toList ++ (upperDigits[d]?).toList).all fun ch => P d ch) = true) :
    P d ch := by
  have hd := List.all_eq_true.mp hall d (List.mem_range.mpr (Nat.lt_of_lt_of_le h.1 hbase))
  refine of_decide_eq_true (List.all_eq_true.mp hd ch (List.mem_append.mpr ?_))
  rcases h.2 with h | h
  · exact .inl (by simp [h])
  · exact .inr (by simp [h])

/-- The parser reads a digit as its value. -/
theorem toInt_of_isDigitOf {base : Nat} {ch : Char} {d : Nat} (hbase : base ≤ 16)
    (h : IsDigitOf base ch d) : ch ≠ '_' ∧ toInt ch = BitVec.ofNat 64 d :=
  h.of_all (fun d ch => ch ≠ '_' ∧ toInt ch = BitVec.ofNat 64 d) hbase (by decide +kernel)

/-- The number grows with every digit. -/
theorem le_foldl_digits {base : Nat} (hbase : 0 < base) (ds : List Nat) (n : Nat) :
    n ≤ ds.foldl (fun n d => d + base * n) n := by
  induction ds generalizing n with
  | nil => exact Nat.le_refl n
  | cons d ds ih =>
    refine Nat.le_trans ?_ (ih (d + base * n))
    exact Nat.le_trans (Nat.le_mul_of_pos_left n hbase) (Nat.le_add_left _ _)

theorem ofDigits_reverse (base : Nat) (ds : List Nat) :
    Nat.ofDigits base ds.reverse = ds.foldl (fun n d => d + base * n) 0 := by
  rw [Nat.ofDigits_eq_foldr, List.foldr_reverse]
  rfl

/-- The test for an overflow is exact. -/
theorem overflow_iff {base : Nat} (hbase : 0 < base) (hle : base ≤ 16) {d : Nat} (hd : d < base)
    (value : BitVec 64) :
    value > (BitVec.allOnes 64 - BitVec.ofNat 64 d) / BitVec.ofNat 64 base ↔
      2 ^ 64 ≤ d + base * value.toNat := by
  have hdiv : ((BitVec.allOnes 64 - BitVec.ofNat 64 d) / BitVec.ofNat 64 base).toNat =
      (2 ^ 64 - 1 - d) / base := by
    rw [BitVec.toNat_udiv, BitVec.toNat_sub_of_le, BitVec.toNat_allOnes, BitVec.toNat_ofNat,
      BitVec.toNat_ofNat, Nat.mod_eq_of_lt, Nat.mod_eq_of_lt]
    · omega
    · omega
    · rw [BitVec.le_def, BitVec.toNat_allOnes]
      omega
  rw [gt_iff_lt, BitVec.lt_def, hdiv, Nat.div_lt_iff_lt_mul hbase]
  rw [Nat.mul_comm base]
  omega

/-- The sum of the parser is the number of the digits if that fits. -/
theorem accumulate_eq {base : Nat} (hbase : 0 < base) (hle : base ≤ 16) {body : List Char}
    {ds : List Nat} (h : List.Forall₂ (IsDigitOf base) (body.filter (· ≠ '_')) ds)
    (value : BitVec 64) :
    accumulate (BitVec.ofNat 64 base) value body =
      let n := ds.foldl (fun n d => d + base * n) value.toNat
      if n < 2 ^ 64 then some (BitVec.ofNat 64 n) else none := by
  induction body generalizing value ds with
  | nil =>
    cases h
    simp [accumulate, value.isLt]
  | cons ch body ih =>
    rw [accumulate]
    by_cases hch : ch = '_'
    · rw [if_pos hch]
      refine ih ?_ value
      rwa [List.filter_cons_of_neg (by simp [hch])] at h
    · rw [if_neg hch]
      rw [List.filter_cons_of_pos (by simp [hch])] at h
      cases h with | @cons _ d _ ds hd hds =>
      rw [(toInt_of_isDigitOf hle hd).2, List.foldl_cons]
      by_cases hover : 2 ^ 64 ≤ d + base * value.toNat
      · rw [if_pos ((overflow_iff hbase hle hd.1 value).mpr hover)]
        have := le_foldl_digits hbase ds (d + base * value.toNat)
        simp only
        rw [if_neg (by omega)]
      · rw [if_neg (mt (overflow_iff hbase hle hd.1 value).mp hover), ih hds]
        have hvalue : (value * BitVec.ofNat 64 base + BitVec.ofNat 64 d).toNat =
            d + base * value.toNat := by
          rw [BitVec.toNat_add, BitVec.toNat_mul, BitVec.toNat_ofNat, BitVec.toNat_ofNat,
            Nat.mul_mod_mod, Nat.add_mod_mod, Nat.mod_add_mod, Nat.mod_eq_of_lt]
          · rw [Nat.add_comm, Nat.mul_comm]
          · rw [Nat.add_comm, Nat.mul_comm]
            omega
        rw [hvalue]

/-! ## The parser -/

/-- The parser finds the prefix and the digits again. -/
theorem literalBase_eq {entry : List Char × Nat} (hentry : entry ∈ basePrefixes)
    {body : List Char} {ds : List Nat}
    (h : List.Forall₂ (IsDigitOf entry.2) (body.filter (· ≠ '_')) ds) :
    literalBase (entry.1 ++ body) = (BitVec.ofNat 64 entry.2, body) := by
  simp only [basePrefixes, List.mem_cons, List.not_mem_nil, or_false] at hentry
  rcases hentry with rfl | rfl | rfl | rfl | rfl | rfl | rfl
  · rfl
  · rfl
  · rfl
  · rfl
  · rfl
  · rfl
  · -- no decimal number starts like a prefix
    have hsecond : ∀ ch' rest, body = '0' :: ch' :: rest →
        ch' ∉ ['x', 'X', 'b', 'B', 'o', 'O'] := by
      rintro ch' rest rfl hch'
      have hletters : ['x', 'X', 'b', 'B', 'o', 'O'].all (fun ch => decide (ch ≠ '_' ∧
          ∀ d : Nat, d < 10 → ¬ IsDigitOf 10 ch d)) = true := by decide +kernel
      obtain ⟨hne, hno⟩ := of_decide_eq_true (List.all_eq_true.mp hletters ch' hch')
      rw [List.filter_cons_of_pos (by decide), List.filter_cons_of_pos (by simpa using hne)] at h
      cases h with | cons _ h =>
      cases h with | cons hd _ => exact hno _ hd.1 hd
    rw [List.nil_append]
    unfold literalBase
    split
    all_goals first
      | exact absurd (by decide) (hsecond _ _ rfl)
      | rfl

namespace ParserM

variable {α β : Type} (st : ParserState)

theorem bind_apply (x : ParserM α) (f : α → ParserM β) :
    (x >>= f) st = (x st).bind fun result => f result.1 result.2 := rfl

theorem pure_apply (a : α) : (pure a : ParserM α) st = some (a, st) := rfl

theorem get_apply : (get : ParserM ParserState) st = some (st, st) := rfl

theorem set_apply (st' : ParserState) : (set st' : ParserM PUnit) st = some (⟨⟩, st') := rfl

end ParserM

theorem bounds_of_basePrefixes : ∀ entry ∈ basePrefixes, 0 < entry.2 ∧ entry.2 ≤ 16 := by decide

/-- The message about a literal that is too large. -/
def literalTooLarge (lexeme : List Char) : String :=
  "integer literal '" ++ String.ofList lexeme ++ "' does not fit in 64 bits"

theorem advance_cons {t : Token} (hkind : t.kind ≠ .eof) (rest : List Token)
    (diagnostics : DiagnosticEngine) :
    ParserState.advance ⟨t :: rest, diagnostics⟩ = ⟨rest, diagnostics⟩ :=
  if_neg (by simpa [ParserState.atEnd, ParserState.current] using hkind)

theorem parseLiteralIntegerExpr_eq {t : Token} (hkind : t.kind ≠ .eof) (rest : List Token)
    (diagnostics : DiagnosticEngine) :
    parseLiteralIntegerExpr ⟨t :: rest, diagnostics⟩ =
      match accumulate (literalBase t.lexeme).1 0 (literalBase t.lexeme).2 with
      | some value => some (.literalInteger value, ⟨rest, diagnostics⟩)
      | none => some (.literalInteger 0,
        ⟨rest, diagnostics.reportError .parser t.location (literalTooLarge t.lexeme)⟩) := by
  simp only [parseLiteralIntegerExpr, advance, ParserM.bind_apply, ParserM.get_apply,
    Option.bind_some, advance_cons hkind, ParserState.current, List.headD_cons]
  generalize accumulate (literalBase t.lexeme).1 0 (literalBase t.lexeme).2 = sum
  rcases sum with _ | value
  · rfl
  · rfl

/-- What the parser makes of a lexeme that denotes a number: the number, or a report. -/
theorem parse_of_denotes {t : Token} {n : Nat} (h : Denotes t.lexeme n) (hkind : t.kind ≠ .eof)
    (rest : List Token) (diagnostics : DiagnosticEngine) :
    (n < 2 ^ 64 → ∃ value : BitVec 64, value.toNat = n ∧
      parseLiteralIntegerExpr ⟨t :: rest, diagnostics⟩ =
        some (.literalInteger value, ⟨rest, diagnostics⟩)) ∧
    (2 ^ 64 ≤ n → parseLiteralIntegerExpr ⟨t :: rest, diagnostics⟩ =
      some (.literalInteger 0,
        ⟨rest, diagnostics.reportError .parser t.location (literalTooLarge t.lexeme)⟩)) := by
  obtain ⟨entry, hentry, body, ds, hlexeme, hds, hn⟩ := h
  obtain ⟨hpos, hle⟩ := bounds_of_basePrefixes entry hentry
  have hsum := accumulate_eq hpos hle hds 0
  rw [show (0 : BitVec 64).toNat = 0 from rfl, ← ofDigits_reverse, ← hn] at hsum
  rw [parseLiteralIntegerExpr_eq hkind, hlexeme, literalBase_eq hentry hds]
  constructor
  · intro hlt
    rw [hsum, if_pos hlt]
    exact ⟨BitVec.ofNat 64 n, Nat.mod_eq_of_lt hlt, rfl⟩
  · intro hge
    rw [hsum, if_neg (Nat.not_lt.mpr hge)]

/-! ## The lexer -/

/-- The digits of a base that a test of the lexer lets pass. -/
def TestsDigits (p : Char → Bool) (base : Nat) : Prop := ∀ ch, p ch = true → ∃ d, IsDigitOf base ch d

theorem testsDigits_of_lt {p : Char → Bool} {base : Nat}
    (hlt : ∀ ch, p ch = true → ch ≤ 'f')
    (hall : ∀ n < 103, p (Char.ofNat n) = true → ∃ d < base, IsDigitOf base (Char.ofNat n) d) :
    TestsDigits p base := by
  intro ch hch
  have hn : ch.toNat < 103 := Nat.lt_succ_of_le (UInt32.le_iff_toNat_le.mp (hlt ch hch))
  rw [← Char.ofNat_toNat ch] at hch ⊢
  obtain ⟨d, -, hd⟩ := hall _ hn hch
  exact ⟨d, hd⟩

theorem isDigit_le {ch : Char} (h : isDigit ch = true) : ch ≤ '9' := by
  rw [isDigit, Char.isDigit, Bool.and_eq_true, decide_eq_true_eq, decide_eq_true_eq] at h
  exact h.2

theorem testsDigits_isDigit : TestsDigits isDigit 10 :=
  testsDigits_of_lt (fun _ h => Char.le_trans (isDigit_le h) (by decide)) (by decide +kernel)

theorem testsDigits_isHexDigit : TestsDigits isHexDigit 16 := by
  refine testsDigits_of_lt (fun ch h => ?_) (by decide +kernel)
  simp only [isHexDigit, Bool.or_eq_true, Bool.and_eq_true, decide_eq_true_eq] at h
  rcases h with (h | h) | h
  · exact Char.le_trans (isDigit_le h) (by decide)
  · exact h.2
  · exact Char.le_trans h.2 (by decide)

theorem testsDigits_binary : TestsDigits (fun ch => ch == '0' || ch == '1') 2 := by
  refine testsDigits_of_lt (fun ch h => ?_) (by decide +kernel)
  rcases Bool.or_eq_true_iff.mp h with h | h
  · exact beq_iff_eq.mp h ▸ by decide
  · exact beq_iff_eq.mp h ▸ by decide

theorem testsDigits_octal : TestsDigits (fun ch => '0' ≤ ch && ch ≤ '7') 8 := by
  refine testsDigits_of_lt (fun ch h => ?_) (by decide +kernel)
  rw [Bool.and_eq_true, decide_eq_true_eq, decide_eq_true_eq] at h
  exact Char.le_trans h.2 (by decide)

/-- Digits and separators are the digits of a number. -/
theorem exists_digits {p : Char → Bool} {base : Nat} (hp : TestsDigits p base) {body : List Char}
    (h : ∀ ch ∈ body, (p ch || ch == '_') = true) :
    ∃ ds, List.Forall₂ (IsDigitOf base) (body.filter (· ≠ '_')) ds := by
  induction body with
  | nil => exact ⟨[], .nil⟩
  | cons ch body ih =>
    obtain ⟨ds, hds⟩ := ih fun ch' hch' => h ch' (List.mem_cons_of_mem _ hch')
    by_cases hch : ch = '_'
    · rw [List.filter_cons_of_neg (by simp [hch])]
      exact ⟨ds, hds⟩
    · rw [List.filter_cons_of_pos (by simp [hch])]
      have hdigit : p ch = true := by simpa [hch] using h ch List.mem_cons_self
      obtain ⟨d, hd⟩ := hp ch hdigit
      exact ⟨d :: ds, .cons hd hds⟩

/-- A prefix and digits denote a number. -/
theorem denotes_of_body {entry : List Char × Nat} (hentry : entry ∈ basePrefixes)
    {p : Char → Bool} (hp : TestsDigits p entry.2) {body : List Char}
    (h : ∀ ch ∈ body, (p ch || ch == '_') = true) : ∃ n, Denotes (entry.1 ++ body) n := by
  obtain ⟨ds, hds⟩ := exists_digits hp h
  exact ⟨_, entry, hentry, body, ds, rfl, hds, rfl⟩

namespace Scan

variable {text : List Char} {filename : String} {start : Cursor text} {s : Scan text}

theorem denotes_lexPrefixedNumber {p : Char → Bool} {base : Nat} {ch ch' : Char}
    {rest rest' : List Char} (hentry : ([ch, ch'], base) ∈ basePrefixes) (hp : TestsDigits p base)
    (hstart : start.rest = ch :: rest) (hs : s.cursor = start.advance)
    (hrest : s.cursor.rest = ch' :: rest') :
    ∃ n, Denotes (s.lexPrefixedNumber filename p start).1.lexeme n := by
  have hle := Cursor.pos_le_advanceWhile (fun ch => p ch || ch == '_') s.cursor.advance
  have hpos := (Cursor.advance_of_cons hrest).2
  have hpos' := (Cursor.advance_of_cons hstart).2
  rw [← hs] at hpos'
  have hlexeme : (s.lexPrefixedNumber filename p start).1.lexeme =
      [ch, ch'] ++ Cursor.slice text s.cursor.advance.pos
        (s.cursor.advance.advanceWhile fun ch => p ch || ch == '_').pos := by
    have hcursor : (s.lexPrefixedNumber filename p start).1.lexeme = Cursor.slice text start.pos
        (s.cursor.advance.advanceWhile fun ch => p ch || ch == '_').pos := by
      rw [lexPrefixedNumber]
      dsimp only [makeToken]
      split_ifs
      · rfl
      · rfl
    rw [hcursor, Cursor.slice_cons hstart (by omega), ← hs, Cursor.slice_cons hrest (by omega)]
    rfl
  rw [hlexeme]
  exact denotes_of_body hentry hp fun ch hch => Cursor.of_mem_slice_advanceWhile hch

theorem lexExponent_of_false (h : (s.lexExponent filename).1 = false) :
    (s.lexExponent filename).2 = s := by
  rw [lexExponent] at h ⊢
  split_ifs at h ⊢
  · dsimp only at h
    split_ifs at h
  · rfl

theorem denotes_lexDecimalNumber {ch : Char} {rest : List Char} (hch : isDigit ch = true)
    (hstart : start.rest = ch :: rest) (hs : s.cursor = start.advance)
    (hkind : (s.lexDecimalNumber filename start).1.kind = .intLiteral) :
    ∃ n, Denotes (s.lexDecimalNumber filename start).1.lexeme n := by
  have hle := Cursor.pos_le_advanceWhile (fun ch => isDigit ch || ch == '_') s.cursor
  have hpos := (Cursor.advance_of_cons hstart).2
  rw [← hs] at hpos
  have hlexeme : (s.lexDecimalNumber filename start).1.lexeme =
      Cursor.slice text start.pos s.skipDigits.cursor.pos := by
    simp only [lexDecimalNumber, makeToken] at hkind ⊢
    split_ifs at hkind ⊢ with hfraction hfloat hfloat
    -- without a fraction and without an exponent, the number ends with its digits
    · exact absurd (.inl hfraction) hfloat
    · rw [not_or, Bool.not_eq_true] at hfloat
      rw [lexExponent_of_false hfloat.2]
  have hlt : start.pos < s.skipDigits.cursor.pos := Nat.lt_of_lt_of_le (by omega) hle
  rw [hlexeme, Cursor.slice_cons hstart hlt, ← hs]
  have hentry : (([] : List Char), 10) ∈ basePrefixes := by decide
  refine denotes_of_body hentry testsDigits_isDigit fun ch' hch' => ?_
  rcases List.mem_cons.mp hch' with rfl | hch'
  · rw [hch, Bool.true_or]
  · exact Cursor.of_mem_slice_advanceWhile hch'

theorem denotes_lexNumber {ch : Char} {rest : List Char} (hch : isDigit ch = true)
    (hstart : start.rest = ch :: rest) (hs : s.cursor = start.advance)
    (hkind : (s.lexNumber filename start).1.kind = .intLiteral) :
    ∃ n, Denotes (s.lexNumber filename start).1.lexeme n := by
  rw [lexNumber] at hkind ⊢
  split_ifs at hkind ⊢ with hzero
  · rw [hstart, List.head?_cons, Option.some_inj] at hzero
    subst hzero
    have hprefixed {ch' : Char} {base : Nat} {p : Char → Bool} (hhead : s.cursor.rest.head? = some ch')
        (hentry : (['0', ch'], base) ∈ basePrefixes) (hp : TestsDigits p base) :
        ∃ n, Denotes (s.lexPrefixedNumber filename p start).1.lexeme n := by
      obtain ⟨rest', hrest⟩ := List.head?_eq_some_iff.mp hhead
      exact denotes_lexPrefixedNumber hentry hp hstart hs hrest
    split at hkind
    · exact hprefixed ‹_› (by decide) testsDigits_isHexDigit
    · exact hprefixed ‹_› (by decide) testsDigits_isHexDigit
    · exact hprefixed ‹_› (by decide) testsDigits_binary
    · exact hprefixed ‹_› (by decide) testsDigits_binary
    · exact hprefixed ‹_› (by decide) testsDigits_octal
    · exact hprefixed ‹_› (by decide) testsDigits_octal
    · exact denotes_lexDecimalNumber hch hstart hs hkind
  · exact denotes_lexDecimalNumber hch hstart hs hkind

end Scan

namespace Lexer

variable {text : List Char} {filename : String} {l : Lexer text}

theorem denotes_lexToken {token : Token} (h : (l.lexToken filename).1 = some token)
    (hkind : token.kind = .intLiteral) : ∃ n, Denotes token.lexeme n := by
  rw [lexToken] at h
  dsimp only at h
  split at h
  · obtain rfl := Option.some.inj h
    cases hkind
  · split at h
    · obtain rfl := Option.some.inj h
      cases hkind
    · rename_i ch rest hrest
      split at h
      · cases h
      · rename_i token' htoken
        obtain rfl := Option.some.inj h
        obtain ⟨hdigit, rfl⟩ := (kind_lexFrom htoken).1 hkind
        exact Scan.denotes_lexNumber hdigit hrest rfl hkind

theorem SearchesAsm.kind {result : Option Token × Lexer text}
    (h : SearchesAsm filename l result) : ∀ block ∈ result.1, block.kind = .asmBlock := by
  intro block hblock
  cases h with
  | skipped => cases hblock
  | none => cases hblock
  | block _ hasm =>
    obtain rfl := Option.some.inj hblock
    cases hasm with
    | block => rfl

/-- Every integer literal of a turn denotes a number. -/
theorem denotes_turn {t : Token} (h : t ∈ (l.turn filename).tokens) (hkind : t.kind = .intLiteral) :
    ∃ n, Denotes t.lexeme n := by
  have hblock {l : Lexer text} {result : Option Token × Lexer text}
      (hasm : SearchesAsm filename l result) (ht : t ∈ result.1) : ∃ n, Denotes t.lexeme n := by
    rw [hasm.kind t ht] at hkind
    cases hkind
  have hretry := searchesAsm_retryAsmBlock filename l
  rw [turn] at h
  rcases hsearched : l.retryAsmBlock filename with ⟨_ | block, l₁⟩
  · rw [hsearched] at h
    rcases hlex : l₁.lexToken filename with ⟨_ | token, l₂⟩
    · simp only [hlex, List.not_mem_nil] at h
    · have htoken := denotes_lexToken (congrArg Prod.fst hlex)
      simp only [hlex] at h
      split_ifs at h with heof
      · rcases List.mem_pair.mp h with rfl | rfl
        · cases hkind
        · exact htoken hkind
      · exact List.mem_singleton.mp h ▸ htoken (List.mem_singleton.mp h ▸ hkind)
      · rcases List.mem_cons.mp h with rfl | hafter
        · exact htoken hkind
        · exact hblock (searchesAsm_afterAsm filename l₂) (Option.mem_toList.mp hafter)
      · exact List.mem_singleton.mp h ▸ htoken (List.mem_singleton.mp h ▸ hkind)
  · rw [hsearched] at h hretry
    exact hblock hretry (List.mem_singleton.mp h ▸ rfl)

theorem denotes_tokenizeLoop {tokens : List Token}
    (htokens : ∀ t ∈ tokens, t.kind = .intLiteral → ∃ n, Denotes t.lexeme n) :
    ∀ t ∈ (l.tokenizeLoop filename tokens).1, t.kind = .intLiteral → ∃ n, Denotes t.lexeme n := by
  fun_induction tokenizeLoop filename l tokens with
  | case1 l tokens next =>
    refine List.forall_mem_append.mpr ⟨htokens, fun t ht => denotes_turn ht⟩
  | case2 l tokens next _ ih =>
    exact ih (List.forall_mem_append.mpr ⟨htokens, fun t ht => denotes_turn ht⟩)

end Lexer

end Mirage.Syntax
