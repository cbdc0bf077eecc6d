import Mirage.Syntax.ExprPrint
import Mirage.Syntax.IntLiteral

/-!
# The levels of the parser of expressions

Every routine of the parser has a level (`routine`), and every token a level up to which it goes
on with an expression (`reach`): what a routine has read is read to its end when the next token
does not reach it. A routine either reads an expression (`Reads`) or, where it is a loop, comes to
the loop with the expression on its left (`Chains`), and then goes on with every operator of
its level. `At` is the one or the other.

* `At.climb`, `At.of_le`: what a routine reads, the routines of lower levels read;
* `at_parenthesized`: between parentheses everything is read as an operand;
* `At.binary`, `At.postfixed`: the loops take one more operator.
-/

namespace Mirage.Syntax

open Ast (UnaryOp BinaryOp)

variable (o : Others)

/-! ## Routines and levels -/

/-- The routine of a level. -/
def routine (fuel : Nat) : Nat → ParserM Expr
  | 0 => parseAssignExpr o (calls o fuel) fuel
  | 1 => parseWhenExpr o (calls o fuel) fuel
  | 2 => parseTernaryExpr o (calls o fuel) fuel
  | 3 => parseLogicalOr o (calls o fuel) fuel
  | 4 => parseLogicalAnd o (calls o fuel) fuel
  | 5 => parseInExpr o (calls o fuel) fuel
  | 6 => parseBitwiseOr o (calls o fuel) fuel
  | 7 => parseBitwiseXor o (calls o fuel) fuel
  | 8 => parseBitwiseAnd o (calls o fuel) fuel
  | 9 => parseEquality o (calls o fuel) fuel
  | 10 => parseComparison o (calls o fuel) fuel
  | 11 => parseShift o (calls o fuel) fuel
  | 12 => parseAdditive o (calls o fuel) fuel
  | 13 => parseMultiplicative o (calls o fuel) fuel
  | 14 => parseUnary o (calls o fuel) fuel
  | 15 => parsePostfix o (calls o fuel) fuel
  | _ => parsePrimary o (calls o fuel)

/-- The operators of a level. -/
def levelOp : Nat → TokenKind → Option BinaryOp
  | 3 => logicalOrOp
  | 4 => logicalAndOp
  | 6 => bitwiseOrOp
  | 7 => bitwiseXorOp
  | 8 => bitwiseAndOp
  | 9 => equalityOp
  | 10 => comparisonOp
  | 11 => shiftOp
  | 12 => additiveOp
  | 13 => multiplicativeOp
  | _ => fun _ => none

/-- The levels of the loops over binary operators. -/
def IsBinaryLevel (level : Nat) : Prop := level ∈ [3, 4, 6, 7, 8, 9, 10, 11, 12, 13]

/-- One more than the level of the routine that goes on with the token, and 0 if there is none. -/
def reach : TokenKind → Nat
  | .equal | .plusEqual | .minusEqual | .starEqual | .slashEqual | .ampEqual | .pipeEqual
  | .caretEqual | .shiftLeftEqual | .shiftRightEqual | .tildeEqual => 1
  | .kwWhen => 2
  | .question => 3
  | .pipePipe => 4
  | .ampAmp => 5
  | .kwIn => 6
  | .pipe => 7
  | .caret | .tilde => 8
  | .ampersand => 9
  | .equalEqual | .bangEqual => 10
  | .less | .greater | .lessEqual | .greaterEqual => 11
  | .shiftLeft | .shiftRight => 12
  | .plus | .minus => 13
  | .star | .slash | .percent => 14
  | .lParen | .dot | .plusPlus | .minusMinus | .lBracket => 16
  -- behind a member it may be a payload
  | .lBrace => 17
  | _ => 0

theorem reach_of_levelOp {level : Nat} {kind : TokenKind} {op : BinaryOp}
    (h : levelOp level kind = some op) : reach kind = level + 1 := by
  unfold levelOp at h
  split at h
  all_goals first
    | cases h
    | cases kind <;> first | rfl | cases h

theorem levelOp_eq_none {level : Nat} {kind : TokenKind} (h : reach kind ≤ level) :
    levelOp level kind = none := by
  refine Option.eq_none_iff_forall_ne_some.2 fun op hop => ?_
  rw [reach_of_levelOp hop] at h
  omega

theorem levelOp_binaryLexeme {op : BinaryOp} (h : op ≠ .in) :
    levelOp (binaryLevel op) (binaryLexeme op).1 = some op := by
  cases op <;> first | rfl | exact absurd rfl h

theorem isBinaryLevel {op : BinaryOp} (h : op ≠ .in) : IsBinaryLevel (binaryLevel op) := by
  cases op <;> first | exact absurd rfl h | simp [IsBinaryLevel, binaryLevel]

theorem reach_binaryLexeme (op : BinaryOp) : reach (binaryLexeme op).1 = binaryLevel op + 1 := by
  cases op <;> rfl

theorem routine_binary {level : Nat} (h : IsBinaryLevel level) (fuel : Nat) :
    routine o fuel level =
      parseBinary (levelOp level) (routine o fuel (level + 1)) fuel := by
  simp only [IsBinaryLevel, List.mem_cons, List.not_mem_nil, or_false] at h
  rcases h with rfl | rfl | rfl | rfl | rfl | rfl | rfl | rfl | rfl | rfl <;> rfl

theorem routine_assign (fuel : Nat) : routine o fuel 0 = (do
    let expr ← routine o fuel 1
    match matchAssignOp (← current).kind with
    | some op =>
      let _ ← advance
      return .assign op expr (← (calls o fuel).assignExpr)
    | none => return expr) := rfl

theorem routine_when (fuel : Nat) : routine o fuel 1 = (do
    let expr ← routine o fuel 2
    if ← matchKind .kwWhen then
      let condition ← routine o fuel 2
      let _ ← expect .kwElse "'else'"
      return .whenExpr condition expr (← (calls o fuel).expr)
    else return expr) := rfl

theorem routine_ternary (fuel : Nat) : routine o fuel 2 = (do
    let expr ← routine o fuel 3
    if ← matchKind .question then
      let thenExpr ← (calls o fuel).expr
      let _ ← expect .colon "':'"
      return .ternary expr thenExpr (← (calls o fuel).expr)
    else return expr) := rfl

theorem routine_in (fuel : Nat) : routine o fuel 5 = (do
    let lhs ← routine o fuel 6
    if ← matchKind .kwIn then return .binary .in lhs (← routine o fuel 6)
    else return lhs) := rfl

theorem routine_unary (fuel : Nat) : routine o fuel 14 = (do
    let kind := (← current).kind
    if kind = .kwTry then
      let _ ← advance
      return .tryExpr (← routine o fuel 15)
    else if kind = .plusPlus || kind = .minusMinus then
      let _ ← advance
      return .incrDecr (← (calls o fuel).unary) (kind = .plusPlus) true
    else
      match matchUnaryOp kind with
      | some op =>
        let _ ← advance
        return .unary op (← (calls o fuel).unary)
      | none => routine o fuel 15) := rfl

theorem routine_postfixLevel (fuel : Nat) : routine o fuel 15 = (do
    postfixLoop o (calls o fuel) fuel (← routine o fuel 16)) := rfl

/-! ## Steps of the parser -/

section Steps

variable {t : Token} {ts : List Token} {d : DiagnosticEngine} {kind : TokenKind}
  {α β : Type} {x : ParserM α} {f : α → ParserM β} {a : α} {st st' : ParserState}

theorem run_bind (h : x st = some (a, st')) : (x >>= f) st = f a st' := by
  rw [ParserM.bind_apply, h]
  rfl

theorem run_current : current ⟨t :: ts, d⟩ = some (t, ⟨t :: ts, d⟩) := rfl

theorem run_check : check kind ⟨t :: ts, d⟩ = some (decide (t.kind = kind), ⟨t :: ts, d⟩) := rfl

theorem run_advance (h : t.kind ≠ .eof) : advance ⟨t :: ts, d⟩ = some (t, ⟨ts, d⟩) := by
  rw [advance, advance_cons h]
  rfl

theorem run_match (h : t.kind = kind) (heof : kind ≠ .eof) :
    matchKind kind ⟨t :: ts, d⟩ = some (true, ⟨ts, d⟩) := by
  have hcheck : ParserState.check ⟨t :: ts, d⟩ kind = true := decide_eq_true h
  rw [matchKind, hcheck, advance_cons (h ▸ heof)]
  rfl

theorem run_match_ne (h : t.kind ≠ kind) :
    matchKind kind ⟨t :: ts, d⟩ = some (false, ⟨t :: ts, d⟩) := by
  have hcheck : ParserState.check ⟨t :: ts, d⟩ kind = false := decide_eq_false h
  rw [matchKind, hcheck]
  rfl

theorem run_expect (h : t.kind = kind) (heof : kind ≠ .eof) (message : String) :
    expect kind message ⟨t :: ts, d⟩ = some (t, ⟨ts, d⟩) := by
  have hcheck : ParserState.check ⟨t :: ts, d⟩ kind = true := decide_eq_true h
  rw [expect, hcheck, advance_cons (h ▸ heof)]
  rfl

end Steps

/-! ## Reading a list of lexemes -/

/-- Tokens with the lexemes in front of others, for which there is fuel. No two of them are at the
    same place. -/
structure Input (ls : List Lexeme) (fuel : Nat) (toks rest : List Token) : Prop where
  lexemes : toks.map Token.toLexeme = ls
  apart : toks.Pairwise fun t u => t.location.offset ≠ u.location.offset
  enough : (toks ++ rest).length ≤ fuel

theorem Input.append {ls ls' : List Lexeme} {fuel : Nat} {toks rest : List Token}
    (h : Input (ls ++ ls') fuel toks rest) :
    ∃ ts ts', toks = ts ++ ts' ∧ Input ls fuel ts (ts' ++ rest) ∧ Input ls' fuel ts' rest := by
  obtain ⟨ts, ts', rfl, hts, hts'⟩ := List.map_eq_append_iff.1 h.lexemes
  obtain ⟨hapart, hapart', -⟩ := List.pairwise_append.1 h.apart
  have henough := h.enough
  rw [List.append_assoc] at henough
  refine ⟨ts, ts', rfl, ⟨hts, hapart, henough⟩, ⟨hts', hapart', ?_⟩⟩
  rw [List.length_append] at henough
  omega

theorem Input.cons {l : Lexeme} {ls : List Lexeme} {fuel : Nat} {toks rest : List Token}
    (h : Input (l :: ls) fuel toks rest) :
    ∃ t ts n, toks = t :: ts ∧ fuel = n + 1 ∧ t.kind = l.1 ∧ t.lexeme = l.2 ∧
      Input ls n ts rest := by
  obtain ⟨t, ts, rfl, ht, hts⟩ := List.map_eq_cons_iff.1 h.lexemes
  have henough := h.enough
  rw [List.cons_append, List.length_cons] at henough
  obtain ⟨n, rfl⟩ : ∃ n, fuel = n + 1 := ⟨fuel - 1, by omega⟩
  exact ⟨t, ts, n, rfl, rfl, congrArg Prod.fst ht, congrArg Prod.snd ht, hts,
    (List.pairwise_cons.1 h.apart).2, by omega⟩

/-- A lexeme in the middle. -/
theorem Input.split {l : Lexeme} {ls ls' : List Lexeme} {fuel : Nat} {toks rest : List Token}
    (h : Input (ls ++ l :: ls') fuel toks rest) :
    ∃ ts t ts' n, toks = ts ++ t :: ts' ∧ fuel = n + 1 ∧ t.kind = l.1 ∧
      Input ls fuel ts (t :: (ts' ++ rest)) ∧ Input ls' n ts' rest := by
  obtain ⟨ts, ts', rfl, hts, hts'⟩ := h.append
  obtain ⟨t, ts', n, rfl, rfl, ht, -, hts'⟩ := hts'.cons
  exact ⟨ts, t, ts', n, rfl, rfl, ht, hts, hts'⟩

/-- A lexeme at the end. -/
theorem Input.concat {l : Lexeme} {ls : List Lexeme} {fuel : Nat} {toks rest : List Token}
    (h : Input (ls ++ [l]) fuel toks rest) :
    ∃ ts t, toks = ts ++ [t] ∧ t.kind = l.1 ∧ Input ls fuel ts (t :: rest) := by
  obtain ⟨ts, t, ts', n, rfl, -, ht, hts, hts'⟩ := h.split
  obtain rfl : ts' = [] := List.map_eq_nil_iff.1 hts'.lexemes
  exact ⟨ts, t, rfl, ht, hts⟩

theorem Input.mono {ls : List Lexeme} {fuel fuel' : Nat} {toks rest : List Token}
    (h : Input ls fuel toks rest) (hle : fuel ≤ fuel') : Input ls fuel' toks rest :=
  ⟨h.lexemes, h.apart, h.enough.trans hle⟩

/-- The routine of a level reads the lexemes as the expression, before a token that reaches no
    more than `bound`. -/
def Reads (level bound : Nat) (e : Expr) (ls : List Lexeme) : Prop :=
  ∀ fuel toks u us d, Input ls fuel toks (u :: us) → reach u.kind ≤ bound →
    routine o fuel level ⟨toks ++ u :: us, d⟩ = some (e, ⟨u :: us, d⟩)

/-- The loop of a level with an expression on the left. -/
def levelLoop (level fuel fuel' : Nat) (e : Expr) : ParserM Expr :=
  if level = 15 then postfixLoop o (calls o fuel) fuel' e
  else binaryLoop (levelOp level) (routine o fuel (level + 1)) fuel' e

/-- The routine of a level comes to its loop with the expression on the left, before a token that
    does not go on within the expression. -/
def Chains (level : Nat) (e : Expr) (ls : List Lexeme) : Prop :=
  ∀ fuel toks u us d, Input ls fuel toks (u :: us) → reach u.kind ≤ level + 1 →
    ∃ fuel', (u :: us).length ≤ fuel' ∧ routine o fuel level ⟨toks ++ u :: us, d⟩ =
      levelLoop o level fuel fuel' e ⟨u :: us, d⟩

/-- How an expression of a level is read. Up to level 2 its last part may go on. -/
def At (level : Nat) (e : Expr) (ls : List Lexeme) : Prop :=
  if level ≤ 2 then Reads o level 0 e ls
  else if level = 5 ∨ level = 14 ∨ level = 16 then Reads o level level e ls
  else Chains o level e ls

variable {o}

theorem Reads.mono {level bound bound' : Nat} {e : Expr} {ls : List Lexeme}
    (h : Reads o level bound e ls) (hle : bound' ≤ bound) : Reads o level bound' e ls :=
  fun fuel toks u us d hin hreach => h fuel toks u us d hin (hreach.trans hle)

/-- The loop ends before a token that does not reach its level. -/
theorem levelLoop_ends {level fuel fuel' : Nat} {e : Expr} {u : Token} {us : List Token}
    {d : DiagnosticEngine} (hfuel : (u :: us).length ≤ fuel') (hreach : reach u.kind ≤ level) :
    levelLoop o level fuel fuel' e ⟨u :: us, d⟩ = some (e, ⟨u :: us, d⟩) := by
  obtain ⟨n, rfl⟩ : ∃ n, fuel' = n + 1 := ⟨fuel' - 1, by rw [List.length_cons] at hfuel; omega⟩
  rw [levelLoop]
  split
  · rename_i h15
    rw [h15] at hreach
    rw [postfixLoop, run_bind run_current]
    generalize u.kind = kind at hreach
    cases kind
    all_goals first
      | rfl
      | exact absurd hreach (by decide)
  · rw [binaryLoop, run_bind run_current, levelOp_eq_none hreach]
    rfl

theorem Chains.reads {level : Nat} {e : Expr} {ls : List Lexeme} (h : Chains o level e ls) :
    Reads o level level e ls := by
  intro fuel toks u us d hin hreach
  obtain ⟨fuel', hfuel, hrun⟩ := h fuel toks u us d hin (Nat.le_succ_of_le hreach)
  rw [hrun, levelLoop_ends hfuel hreach]

/-- How far the token after an expression of a level may reach. -/
def bound (level : Nat) : Nat := if level ≤ 2 then 0 else level

theorem At.reads {level : Nat} {e : Expr} {ls : List Lexeme} (h : At o level e ls) :
    Reads o level (bound level) e ls := by
  rw [bound]
  rw [At] at h
  split at h
  · rename_i hle
    rwa [if_pos hle]
  · rename_i hle
    rw [if_neg hle]
    split at h
    · exact h
    · exact h.reads

theorem At.chains {level : Nat} {e : Expr} {ls : List Lexeme} (h : At o level e ls)
    (hlevel : IsBinaryLevel level ∨ level = 15) : Chains o level e ls := by
  rw [At] at h
  simp only [IsBinaryLevel, List.mem_cons, List.not_mem_nil, or_false] at hlevel
  rwa [if_neg (by omega), if_neg (by omega)] at h

theorem at_of_chains {level : Nat} {e : Expr} {ls : List Lexeme} (h : Chains o level e ls)
    (hlevel : IsBinaryLevel level ∨ level = 15) : At o level e ls := by
  rw [At]
  simp only [IsBinaryLevel, List.mem_cons, List.not_mem_nil, or_false] at hlevel
  rwa [if_neg (by omega), if_neg (by omega)]

/-! ## Lower levels -/

theorem Reads.ternary {b : Nat} {e : Expr} {ls : List Lexeme} (h : Reads o 3 b e ls) :
    Reads o 2 (min b 2) e ls := by
  intro fuel toks u us d hin hreach
  have hne : u.kind ≠ .question := fun hk => by
    rw [hk] at hreach
    exact absurd (hreach.trans (Nat.min_le_right b 2)) (by decide)
  rw [routine_ternary, run_bind (h fuel toks u us d hin (hreach.trans (Nat.min_le_left b 2))),
    run_bind (run_match_ne hne)]
  rfl

theorem Reads.whenExpr {b : Nat} {e : Expr} {ls : List Lexeme} (h : Reads o 2 b e ls) :
    Reads o 1 (min b 1) e ls := by
  intro fuel toks u us d hin hreach
  have hne : u.kind ≠ .kwWhen := fun hk => by
    rw [hk] at hreach
    exact absurd (hreach.trans (Nat.min_le_right b 1)) (by decide)
  rw [routine_when, run_bind (h fuel toks u us d hin (hreach.trans (Nat.min_le_left b 1))),
    run_bind (run_match_ne hne)]
  rfl

theorem matchAssignOp_eq_none {kind : TokenKind} (h : reach kind = 0) :
    matchAssignOp kind = none := by
  cases kind <;> first | rfl | exact absurd h (by decide)

theorem Reads.assign {b : Nat} {e : Expr} {ls : List Lexeme} (h : Reads o 1 b e ls) :
    Reads o 0 0 e ls := by
  intro fuel toks u us d hin hreach
  rw [routine_assign, run_bind (h fuel toks u us d hin (hreach.trans (Nat.zero_le b))),
    run_bind run_current, matchAssignOp_eq_none (Nat.le_zero.1 hreach)]
  rfl

theorem Reads.binary {level : Nat} {e : Expr} {ls : List Lexeme} (hlevel : IsBinaryLevel level)
    (h : Reads o (level + 1) (level + 1) e ls) : Chains o level e ls := by
  intro fuel toks u us d hin hreach
  refine ⟨fuel, (by rw [List.length_append]; omega : _ ≤ (toks ++ u :: us).length).trans hin.enough,
    ?_⟩
  have hne : level ≠ 15 := by
    rintro rfl
    simp [IsBinaryLevel] at hlevel
  rw [routine_binary o hlevel, parseBinary, run_bind (h fuel toks u us d hin hreach), levelLoop,
    if_neg hne]

theorem Reads.in_ {e : Expr} {ls : List Lexeme} (h : Reads o 6 6 e ls) : Reads o 5 5 e ls := by
  intro fuel toks u us d hin hreach
  have hne : u.kind ≠ .kwIn := fun hk => by
    rw [hk] at hreach
    exact absurd hreach (by decide)
  rw [routine_in, run_bind (h fuel toks u us d hin (Nat.le_succ_of_le hreach)),
    run_bind (run_match_ne hne)]
  rfl

/-- The lexemes begin with one of the kinds. -/
def Starts (kinds : List TokenKind) (ls : List Lexeme) : Prop := ∃ l ∈ ls.head?, l.1 ∈ kinds

/-- What an operand without a prefix begins with. -/
def operandStarts : List TokenKind := [.intLiteral, .kwTrue, .kwFalse, .identifier, .lParen]

/-- What an expression begins with. -/
def exprStarts : List TokenKind :=
  operandStarts ++ [.minus, .bang, .tilde, .ampersand, .plusPlus, .minusMinus, .kwTry]

theorem Starts.append {kinds : List TokenKind} {ls : List Lexeme} (h : Starts kinds ls)
    (ls' : List Lexeme) : Starts kinds (ls ++ ls') := by
  obtain ⟨l, hl, hkind⟩ := h
  obtain ⟨ls, rfl⟩ := List.head?_eq_some_iff.1 (Option.mem_def.1 hl)
  exact ⟨l, rfl, hkind⟩

/-- The first token of an input. -/
theorem Starts.token {kinds : List TokenKind} {ls : List Lexeme} (h : Starts kinds ls) {fuel : Nat}
    {toks rest : List Token} (hin : Input ls fuel toks rest) :
    ∃ t ts, toks = t :: ts ∧ t.kind ∈ kinds := by
  obtain ⟨l, hl, hkind⟩ := h
  obtain ⟨ls', rfl⟩ := List.head?_eq_some_iff.1 (Option.mem_def.1 hl)
  obtain ⟨t, ts, n, rfl, -, ht, -, -⟩ := hin.cons
  exact ⟨t, ts, rfl, ht ▸ hkind⟩

theorem Reads.unary {e : Expr} {ls : List Lexeme} (h : Reads o 15 15 e ls)
    (hstart : Starts operandStarts ls) : Reads o 14 14 e ls := by
  intro fuel toks u us d hin hreach
  have hrun := h fuel toks u us d hin (Nat.le_succ_of_le hreach)
  obtain ⟨t, ts, rfl, ht⟩ := hstart.token hin
  have hkinds : ∀ kind ∈ operandStarts, kind ≠ .kwTry ∧ kind ≠ .plusPlus ∧ kind ≠ .minusMinus ∧
      matchUnaryOp kind = none := by decide
  obtain ⟨htry, hplus, hminus, hop⟩ := hkinds _ ht
  rw [routine_unary, List.cons_append, run_bind run_current]
  simp only [htry, hplus, hminus, hop, decide_false, Bool.or_self, if_false]
  exact hrun

theorem Reads.postfixLoop {e : Expr} {ls : List Lexeme} (h : Reads o 16 16 e ls) :
    Chains o 15 e ls := by
  intro fuel toks u us d hin hreach
  refine ⟨fuel, (by rw [List.length_append]; omega : _ ≤ (toks ++ u :: us).length).trans hin.enough,
    ?_⟩
  rw [routine_postfixLevel, run_bind (h fuel toks u us d hin hreach), levelLoop, if_pos rfl]

theorem isBinaryLevel_or {level : Nat} (h : level ≤ 15) :
    IsBinaryLevel level ∨ level ∈ [0, 1, 2, 5, 14, 15] := by
  simp only [IsBinaryLevel, List.mem_cons, List.not_mem_nil, or_false]
  omega

theorem At.climb {level : Nat} {e : Expr} {ls : List Lexeme} (h : At o (level + 1) e ls)
    (hlevel : level ≤ 15) (hstart : level = 14 → Starts operandStarts ls) : At o level e ls := by
  have hreads := h.reads
  rcases isBinaryLevel_or hlevel with hbinary | hcases
  · have hbound : bound (level + 1) = level + 1 := by
      refine if_neg ?_
      simp only [IsBinaryLevel, List.mem_cons, List.not_mem_nil, or_false] at hbinary
      omega
    rw [hbound] at hreads
    exact at_of_chains (hreads.binary hbinary) (.inl hbinary)
  · simp only [List.mem_cons, List.not_mem_nil, or_false] at hcases
    rcases hcases with rfl | rfl | rfl | rfl | rfl | rfl
    · exact Reads.assign hreads
    · exact Reads.whenExpr hreads
    · exact (Reads.ternary hreads).mono (by decide)
    · exact Reads.in_ hreads
    · exact Reads.unary hreads (hstart rfl)
    · exact Reads.postfixLoop hreads

/-- What a routine reads, the routines of lower levels read. -/
theorem At.of_le {level level' : Nat} {e : Expr} {ls : List Lexeme} (h : At o level' e ls)
    (hle : level ≤ level') (hlevel : level' ≤ 16)
    (hstart : 15 ≤ level' → Starts operandStarts ls) : At o level e ls := by
  induction hle with
  | refl => exact h
  | @step m hle ih =>
    exact ih (h.climb (Nat.le_of_succ_le_succ hlevel) fun hm => hstart (by omega))
      (Nat.le_of_succ_le hlevel) fun hm => hstart (by omega)

/-! ## Parentheses -/

/-- A whole expression within brackets. -/
theorem At.expr {e : Expr} {ls : List Lexeme} (h : At o 0 e ls) (hstart : Starts exprStarts ls)
    {fuel : Nat} {toks : List Token} {u : Token} {us : List Token} (d : DiagnosticEngine)
    (hin : Input ls fuel toks (u :: us)) (hreach : reach u.kind = 0) :
    (calls o (fuel + 1)).expr ⟨toks ++ u :: us, d⟩ = some (e, ⟨u :: us, d⟩) := by
  have hrun := h.reads fuel toks u us d hin (Nat.le_of_eq hreach)
  obtain ⟨t, ts, rfl, ht⟩ := hstart.token hin
  have hkinds : ∀ kind ∈ exprStarts, kind ≠ .kwImport := by decide
  show parseExprWith o (calls o fuel) fuel _ = _
  rw [parseExprWith, List.cons_append, run_bind run_check, decide_eq_false (hkinds _ ht)]
  exact hrun

/-- Between parentheses everything is read as an operand. -/
theorem at_parenthesized {e : Expr} {ls : List Lexeme} (h : At o 0 e ls)
    (hstart : Starts exprStarts ls) : At o 16 e (lParen :: ls ++ [rParen]) := by
  intro fuel toks u us d hin hreach
  rw [List.cons_append] at hin
  obtain ⟨t, ts, n, rfl, rfl, ht, -, hin⟩ := hin.cons
  obtain ⟨toks, t', rfl, ht', htoks⟩ := hin.concat
  have ht' : t'.kind = .rParen := ht'
  have hinner := h.expr hstart d htoks (by rw [ht']; rfl)
  show parsePrimary o (calls o (n + 1)) _ = _
  rw [parsePrimary, List.cons_append, run_bind run_current, ht]
  show (advance >>= _) _ = _
  rw [run_bind (run_advance (by rw [ht]; decide)), List.append_assoc, List.singleton_append,
    run_bind hinner, run_bind (run_expect ht' (by decide) _)]
  rfl

/-! ## One more operator -/

theorem At.binary {op : BinaryOp} (hop : op ≠ .in) {lhs rhs : Expr} {ls ls' : List Lexeme}
    (hlhs : At o (binaryLevel op) lhs ls) (hrhs : At o (binaryLevel op + 1) rhs ls') :
    At o (binaryLevel op) (.binary op lhs rhs) (ls ++ binaryLexeme op :: ls') := by
  have hlevel := isBinaryLevel hop
  have hbound : bound (binaryLevel op + 1) = binaryLevel op + 1 := by
    refine if_neg ?_
    simp only [IsBinaryLevel, List.mem_cons, List.not_mem_nil, or_false] at hlevel
    omega
  have hne : binaryLevel op ≠ 15 := by
    intro h15
    rw [h15] at hlevel
    simp [IsBinaryLevel] at hlevel
  refine at_of_chains ?_ (.inl hlevel)
  intro fuel toks u us d hin hreach
  obtain ⟨toks, t, ts, n, rfl, rfl, ht, htoks, hts⟩ := hin.split
  have hop? : levelOp (binaryLevel op) t.kind = some op := by rw [ht, levelOp_binaryLexeme hop]
  obtain ⟨fuel', hfuel, hrun⟩ := hlhs.chains (.inl hlevel) _ toks t (ts ++ u :: us) d htoks
    (Nat.le_of_eq (reach_of_levelOp hop?))
  have hright := hrhs.reads (n + 1) ts u us d (hts.mono (Nat.le_succ n)) (by rwa [hbound])
  rw [List.length_cons, List.length_append] at hfuel
  obtain ⟨m, rfl⟩ : ∃ m, fuel' = m + 1 := ⟨fuel' - 1, by omega⟩
  refine ⟨m, by omega, ?_⟩
  have heof : t.kind ≠ .eof := fun he => by
    rw [he] at hop?
    exact absurd (reach_of_levelOp hop?) (Nat.succ_ne_zero _).symm
  rw [List.append_assoc, List.cons_append, hrun, levelLoop, levelLoop, if_neg hne, if_neg hne,
    binaryLoop, run_bind run_current, hop?]
  show (advance >>= _) _ = _
  rw [run_bind (run_advance heof), run_bind hright]

/-- What is behind an operand begins with. -/
def postfixStarts : List TokenKind := [.lParen, .dot, .plusPlus, .minusMinus, .lBracket]

variable (o) in
/-- A turn of the loop behind an operand takes the lexemes, and has then `f` of the expression on
    the left. -/
def Extends (ls : List Lexeme) (f : Expr → Expr) : Prop :=
  ∀ fuel fuel' toks u us d e, Input ls fuel toks (u :: us) → (toks ++ u :: us).length ≤ fuel' →
    reach u.kind ≤ 16 → ∃ fuel'', (u :: us).length ≤ fuel'' ∧
      postfixLoop o (calls o fuel) fuel' e ⟨toks ++ u :: us, d⟩ =
        postfixLoop o (calls o fuel) fuel'' (f e) ⟨u :: us, d⟩

theorem At.postfixed {e : Expr} {ls ls' : List Lexeme} {f : Expr → Expr} (h : At o 15 e ls)
    (hext : Extends o ls' f) (hstart : Starts postfixStarts ls') : At o 15 (f e) (ls ++ ls') := by
  refine at_of_chains ?_ (.inr rfl)
  intro fuel toks u us d hin hreach
  obtain ⟨toks, ts, rfl, htoks, hts⟩ := hin.append
  obtain ⟨t, ts', rfl, ht⟩ := hstart.token hts
  have hkinds : ∀ kind ∈ postfixStarts, reach kind ≤ 16 := by decide
  obtain ⟨fuel', hfuel, hrun⟩ := h.chains (.inr rfl) _ toks t (ts' ++ u :: us) d htoks (hkinds _ ht)
  obtain ⟨fuel'', hfuel'', hturn⟩ := hext fuel fuel' _ u us d e hts hfuel hreach
  refine ⟨fuel'', hfuel'', ?_⟩
  rw [List.append_assoc, List.cons_append, hrun, levelLoop, if_pos rfl, levelLoop, if_pos rfl]
  exact hturn

end Mirage.Syntax
