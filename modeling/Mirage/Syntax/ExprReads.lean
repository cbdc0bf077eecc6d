import Mathlib.Data.List.Forall2
import Mirage.Syntax.ExprLevels

/-!
# Printed expressions are read back

What is printed of an expression is read at its level by every routine of this level and below
(`ReadBack`), and with the parentheses that it is printed with by every other routine. An
expression is built from its parts by one lemma for each routine.

* `IsArgLoop.run`: the loops over the arguments of a call and of an index;
* `extends_call`, `extends_index`, `extends_member`, `extends_deref`, `extends_incrDecr`: what
  follows an operand;
* `readBack`: every expression, by induction;
* `parseExpr_of_lexemes`: the parser, on tokens with the lexemes of an expression.
-/

namespace Mirage.Syntax

open Ast (UnaryOp BinaryOp)

variable {o : Others}

/-! ## Operands -/

theorem isDigitOf_decimal {d : Nat} (h : d < 10) : IsDigitOf 10 (Char.ofNat ('0'.toNat + d)) d := by
  revert d
  decide

/-- The digits of a number denote it. -/
theorem denotes_decimal (n : Nat) : Denotes (decimal n) n := by
  suffices h : ∃ ds, List.Forall₂ (IsDigitOf 10) (decimal n) ds ∧ (∀ ch ∈ decimal n, ch ≠ '_') ∧
      n = Nat.ofDigits 10 ds.reverse by
    obtain ⟨ds, hds, hsep, hn⟩ := h
    refine ⟨([], 10), by decide, decimal n, ds, rfl, ?_, hn⟩
    rwa [List.filter_eq_self.2 fun ch hch => decide_eq_true (hsep ch hch)]
  induction n using Nat.strong_induction_on with
  | _ n ih =>
    have hlast {d : Nat} (hd : d < 10) : Char.ofNat ('0'.toNat + d) ≠ '_' :=
      (toInt_of_isDigitOf (by decide) (isDigitOf_decimal hd)).1
    rw [decimal]
    split
    · rename_i hlt
      exact ⟨[n], .cons (isDigitOf_decimal hlt) .nil, List.forall_mem_singleton.2 (hlast hlt),
        by simp⟩
    · have hmod : n % 10 < 10 := by omega
      obtain ⟨ds, hds, hsep, hn⟩ := ih (n / 10) (by omega)
      refine ⟨ds ++ [n % 10], List.rel_append hds (.cons (isDigitOf_decimal hmod) .nil),
        List.forall_mem_append.2 ⟨hsep, List.forall_mem_singleton.2 (hlast hmod)⟩, ?_⟩
      rw [List.reverse_append, List.reverse_singleton, List.singleton_append,
        Nat.ofDigits_cons, ← hn]
      exact (Nat.mod_add_div n 10).symm

theorem at_literalInteger (value : BitVec 64) :
    At o 16 (.literalInteger value) [(.intLiteral, decimal value.toNat)] := by
  intro fuel toks u us d hin hreach
  obtain ⟨t, ts, n, rfl, rfl, ht, hlexeme, hts⟩ := hin.cons
  obtain rfl : ts = [] := List.map_eq_nil_iff.1 hts.lexemes
  have ht : t.kind = .intLiteral := ht
  have hdenotes : Denotes t.lexeme value.toNat := by rw [hlexeme]; exact denotes_decimal _
  obtain ⟨hread, -⟩ := parse_of_denotes hdenotes (by rw [ht]; decide) (u :: us) d
  obtain ⟨value', hvalue, hrun⟩ := hread value.isLt
  obtain rfl := BitVec.eq_of_toNat_eq hvalue
  show parsePrimary o (calls o (n + 1)) _ = _
  rw [parsePrimary, List.singleton_append, run_bind run_current, ht]
  exact hrun

theorem at_literalBool (value : Bool) :
    At o 16 (.literalBool value) (Expr.literalBool value).body := by
  intro fuel toks u us d hin hreach
  cases value
  · obtain ⟨t, ts, n, rfl, rfl, ht, -, hts⟩ := hin.cons
    obtain rfl : ts = [] := List.map_eq_nil_iff.1 hts.lexemes
    have ht : t.kind = .kwFalse := ht
    show parsePrimary o (calls o (n + 1)) _ = _
    rw [parsePrimary, List.singleton_append, run_bind run_current, ht]
    show (advance >>= _) _ = _
    rw [run_bind (run_advance (by rw [ht]; decide))]
    rfl
  · obtain ⟨t, ts, n, rfl, rfl, ht, -, hts⟩ := hin.cons
    obtain rfl : ts = [] := List.map_eq_nil_iff.1 hts.lexemes
    have ht : t.kind = .kwTrue := ht
    show parsePrimary o (calls o (n + 1)) _ = _
    rw [parsePrimary, List.singleton_append, run_bind run_current, ht]
    show (advance >>= _) _ = _
    rw [run_bind (run_advance (by rw [ht]; decide))]
    rfl

theorem at_ident (name : List Char) : At o 16 (.ident name) [(.identifier, name)] := by
  intro fuel toks u us d hin hreach
  obtain ⟨t, ts, n, rfl, rfl, ht, hlexeme, hts⟩ := hin.cons
  obtain rfl : ts = [] := List.map_eq_nil_iff.1 hts.lexemes
  have ht : t.kind = .identifier := ht
  show parsePrimary o (calls o (n + 1)) _ = _
  rw [parsePrimary, List.singleton_append, run_bind run_current, ht]
  show (advance >>= _) _ = _
  rw [run_bind (run_advance (by rw [ht]; decide)), hlexeme]
  rfl

/-! ## What follows an operand -/

theorem extends_incrDecr (isIncrement : Bool) :
    Extends o [incrDecrLexeme isIncrement] fun e => .incrDecr e isIncrement false := by
  intro fuel fuel' toks u us d e hin hfuel hreach
  obtain ⟨t, ts, n, rfl, rfl, ht, -, hts⟩ := hin.cons
  obtain rfl : ts = [] := List.map_eq_nil_iff.1 hts.lexemes
  rw [List.singleton_append, List.length_cons] at hfuel
  obtain ⟨m, rfl⟩ : ∃ m, fuel' = m + 1 := ⟨fuel' - 1, by omega⟩
  refine ⟨m, by omega, ?_⟩
  rw [postfixLoop, List.singleton_append, run_bind run_current]
  cases isIncrement
  · have ht : t.kind = .minusMinus := ht
    rw [ht]
    show (advance >>= _) _ = _
    rw [run_bind (run_advance (by rw [ht]; decide))]
  · have ht : t.kind = .plusPlus := ht
    rw [ht]
    show (advance >>= _) _ = _
    rw [run_bind (run_advance (by rw [ht]; decide))]

theorem run_checkAt {t t' : Token} {ts : List Token} {d : DiagnosticEngine} {kind : TokenKind} :
    checkAt 1 kind ⟨t :: t' :: ts, d⟩ = some (decide (t'.kind = kind), ⟨t :: t' :: ts, d⟩) := rfl

theorem extends_deref : Extends o [(.dot, ['.']), (.star, ['*'])] fun e => .unary .deref e := by
  intro fuel fuel' toks u us d e hin hfuel hreach
  obtain ⟨t, ts, n, rfl, rfl, ht, -, hin⟩ := hin.cons
  obtain ⟨t', ts, n, rfl, rfl, ht', -, hts⟩ := hin.cons
  obtain rfl : ts = [] := List.map_eq_nil_iff.1 hts.lexemes
  have ht : t.kind = .dot := ht
  have ht' : t'.kind = .star := ht'
  simp only [List.cons_append, List.nil_append, List.length_cons] at hfuel
  obtain ⟨m, rfl⟩ : ∃ m, fuel' = m + 1 := ⟨fuel' - 1, by omega⟩
  refine ⟨m, by rw [List.length_cons]; omega, ?_⟩
  rw [postfixLoop, List.cons_append, List.singleton_append, run_bind run_current, ht]
  show (checkAt 1 .star >>= _) _ = _
  rw [run_bind run_checkAt, decide_eq_true ht']
  show (advance >>= _) _ = _
  rw [run_bind (run_advance (by rw [ht]; decide)), run_bind (run_advance (by rw [ht']; decide))]

/-- No payload follows before a token that is no brace. -/
theorem run_looksLikeVariantPayload {u : Token} {us : List Token} {d : DiagnosticEngine}
    (h : u.kind ≠ .lBrace) :
    looksLikeVariantPayload ⟨u :: us, d⟩ = some (false, ⟨u :: us, d⟩) := by
  rw [looksLikeVariantPayload, run_bind run_check, decide_eq_false h]
  rfl

theorem extends_member (name : List Char) :
    Extends o [(.dot, ['.']), (.identifier, name)] fun e => .member e name := by
  intro fuel fuel' toks u us d e hin hfuel hreach
  obtain ⟨t, ts, n, rfl, rfl, ht, -, hin⟩ := hin.cons
  obtain ⟨t', ts, n, rfl, rfl, ht', hname, hts⟩ := hin.cons
  obtain rfl : ts = [] := List.map_eq_nil_iff.1 hts.lexemes
  have ht : t.kind = .dot := ht
  have ht' : t'.kind = .identifier := ht'
  have hne : t'.kind ≠ .star := by rw [ht']; decide
  have hbrace : u.kind ≠ .lBrace := fun hk => by
    rw [hk] at hreach
    exact absurd hreach (by decide)
  simp only [List.cons_append, List.nil_append, List.length_cons] at hfuel
  obtain ⟨m, rfl⟩ : ∃ m, fuel' = m + 1 := ⟨fuel' - 1, by omega⟩
  refine ⟨m, by rw [List.length_cons]; omega, ?_⟩
  have hidentifier : expectIdentifier ⟨t' :: u :: us, d⟩ = some (name, ⟨u :: us, d⟩) := by
    rw [expectIdentifier, run_bind (run_expect ht' (by decide) _), hname]
    rfl
  rw [postfixLoop, List.cons_append, List.singleton_append, run_bind run_current, ht]
  show (checkAt 1 .star >>= _) _ = _
  rw [run_bind run_checkAt, decide_eq_false hne]
  show (advance >>= _) _ = _
  rw [run_bind (run_advance (by rw [ht]; decide)), run_bind hidentifier,
    run_bind (run_looksLikeVariantPayload hbrace)]
  rfl

/-! ## Arguments -/

/-- What a list of arguments ends with. -/
def closings : List TokenKind := [.rParen, .rBracket]

/-- A loop over arguments, up to the closing bracket. -/
def IsArgLoop (closing : TokenKind) (arg : Nat → ParserM Expr)
    (loop : Nat → List Expr → ParserM (List Expr)) : Prop :=
  ∀ n args, loop (n + 1) args = (do
    let token ← current
    if token.kind = closing || token.kind = .eof then return args
    let a ← arg n
    if !(← check closing) then let _ ← expect .comma "','"
    progressGuard token.location.offset
    loop n (args ++ [a]))

/-- An argument of a call. -/
def callArg (r : Calls) (fuel : Nat) : ParserM Expr := do
  let arg ← r.expr
  let arg ← (do if ← matchKind .dotDotDot then return Expr.spread arg else return arg)
  skipSemicolons fuel
  return arg

theorem isArgLoop_parseArgs (r : Calls) : IsArgLoop .rParen (callArg r) (parseArgs r) := by
  intro n args
  rw [parseArgs]
  simp only [callArg, bind_assoc, pure_bind]

theorem isArgLoop_parseGenericArgListTail (r : Calls) :
    IsArgLoop .rBracket (fun _ => parseGenericArg o r) (parseGenericArgListTail o r) :=
  fun _ _ => rfl

/-- The expressions are read by the routine for an argument. -/
def ReadsArgs (closing : TokenKind) (arg : Nat → ParserM Expr) (fuel : Nat) (args : List Expr) :
    Prop :=
  ∀ e ∈ args, ∀ n ts t ts' d, Input e.body fuel ts (t :: ts') →
    t.kind = .comma ∨ t.kind = closing → arg (n + 1) ⟨ts ++ t :: ts', d⟩ = some (e, ⟨t :: ts', d⟩)

theorem run_progressGuard {t : Token} {ts : List Token} {d : DiagnosticEngine} {offset : Nat}
    (h : t.location.offset ≠ offset) :
    progressGuard offset ⟨t :: ts, d⟩ = some ((), ⟨t :: ts, d⟩) := by
  have hguard : (!ParserState.atEnd ⟨t :: ts, d⟩ &&
      decide ((ParserState.current ⟨t :: ts, d⟩).location.offset = offset)) = false := by
    rw [show ParserState.current ⟨t :: ts, d⟩ = t from rfl, decide_eq_false h, Bool.and_false]
  rw [progressGuard, hguard]
  rfl

theorem starts_bodies {e : Expr} {es : List Expr}
    (h : ∀ e' ∈ e :: es, Starts exprStarts e'.body) : Starts exprStarts (bodies (e :: es)) := by
  cases es
  · exact h e List.mem_cons_self
  · exact (h e List.mem_cons_self).append _

/-- Arguments between commas are read one by one. -/
theorem IsArgLoop.run {closing : TokenKind} {arg : Nat → ParserM Expr}
    {loop : Nat → List Expr → ParserM (List Expr)} (hloop : IsArgLoop closing arg loop)
    (hclosing : closing ∈ closings) {fuel : Nat} {args : List Expr}
    (hstart : ∀ e ∈ args, Starts exprStarts e.body) (hargs : ReadsArgs closing arg fuel args) :
    ∀ {fuel' : Nat} {acc : List Expr} {toks : List Token} {u : Token} {us : List Token}
      (d : DiagnosticEngine), Input (bodies args) fuel toks (u :: us) → u.kind = closing →
      (∀ t ∈ toks, t.location.offset ≠ u.location.offset) → (toks ++ u :: us).length ≤ fuel' →
      loop fuel' acc ⟨toks ++ u :: us, d⟩ = some (acc ++ args, ⟨u :: us, d⟩) := by
  have hfacts : ∀ kind ∈ closings, kind ≠ .eof ∧ kind ≠ .comma ∧ kind ∉ exprStarts := by decide
  obtain ⟨heof, hcomma, hnot⟩ := hfacts _ hclosing
  have hstarts : ∀ kind ∈ exprStarts, kind ≠ .eof := by decide
  induction args with
  | nil =>
    intro fuel' acc toks u us d hin hu _ hfuel
    obtain rfl : toks = [] := List.map_eq_nil_iff.1 hin.lexemes
    rw [List.nil_append, List.length_cons] at hfuel
    obtain ⟨n, rfl⟩ : ∃ n, fuel' = n + 1 := ⟨fuel' - 1, by omega⟩
    rw [hloop, List.nil_append, run_bind run_current, if_pos (by simp [hu]), List.append_nil]
    rfl
  | cons e es ih =>
    intro fuel' acc toks u us d hin hu hapart hfuel
    obtain ⟨n, rfl⟩ : ∃ n, fuel' = n + 2 := by
      obtain ⟨t, ts, rfl, -⟩ := (starts_bodies hstart).token hin
      simp only [List.cons_append, List.length_cons, List.length_append] at hfuel
      exact ⟨fuel' - 2, by omega⟩
    have hturn {t : Token} {ts : List Token} {st : ParserState} (ht : t.kind ∈ exprStarts)
        (harg : arg (n + 1) ⟨t :: ts, d⟩ = some (e, st)) :
        loop (n + 2) acc ⟨t :: ts, d⟩ = (do
          if !(← check closing) then let _ ← expect .comma "','"
          progressGuard t.location.offset
          loop (n + 1) (acc ++ [e])) st := by
      have hgo : (decide (t.kind = closing) || decide (t.kind = .eof)) = false := by
        rw [decide_eq_false (hstarts _ ht),
          decide_eq_false (fun he : t.kind = closing => hnot (he ▸ ht))]
        rfl
      rw [hloop, run_bind run_current, hgo]
      exact run_bind harg
    obtain ⟨hfirst, hlater⟩ := List.forall_mem_cons.1 hstart
    obtain ⟨harg, hargs⟩ := List.forall_mem_cons.1 hargs
    rcases es with _ | ⟨e', es⟩
    · -- the last argument, with the bracket behind it
      have hrun := harg n toks u us d hin (.inr hu)
      obtain ⟨t, ts, rfl, ht⟩ := hfirst.token hin
      have hguard := hapart t List.mem_cons_self
      rw [List.cons_append] at hrun
      rw [List.cons_append, hturn ht hrun, run_bind run_check, decide_eq_true hu]
      show (progressGuard _ >>= _) _ = _
      rw [run_bind (run_progressGuard hguard.symm), hloop, run_bind run_current,
        if_pos (by simp [hu])]
      rfl
    · obtain ⟨toks, c, ts', m, rfl, rfl, hc, htoks, hts'⟩ := hin.split
      have hrun := harg n toks c (ts' ++ u :: us) d htoks (.inl hc)
      obtain ⟨t, ts, rfl, ht⟩ := hfirst.token htoks
      rw [List.cons_append] at hrun
      have hne : c.kind ≠ closing := fun he => hcomma (he.symm.trans hc)
      obtain ⟨t', ts'', rfl, -⟩ := (starts_bodies hlater).token hts'
      have hguard : t'.location.offset ≠ t.location.offset := by
        have hpair := hin.apart
        rw [List.cons_append, List.pairwise_cons] at hpair
        exact (hpair.1 t' (by simp)).symm
      rw [List.append_assoc, List.cons_append, List.cons_append, hturn ht hrun, run_bind run_check,
        decide_eq_false hne]
      show (expect .comma "','" >>= _) _ = _
      rw [run_bind (run_expect hc (by decide) _)]
      show (progressGuard _ >>= _) _ = _
      rw [List.cons_append, run_bind (run_progressGuard hguard), ← List.cons_append,
        ih hlater hargs d (hts'.mono (Nat.le_succ m)) hu
          (fun t ht => hapart t (List.mem_append_right _ (List.mem_cons_of_mem _ ht))) ?_,
        List.append_assoc]
      · rfl
      · simp only [List.length_append, List.length_cons] at hfuel ⊢
        omega

/-- An expression that is read between brackets. -/
def Readable (o : Others) (e : Expr) : Prop := At o 0 e e.body ∧ Starts exprStarts e.body

theorem Readable.expr {e : Expr} (h : Readable o e) {fuel : Nat} {ts : List Token} {t : Token}
    {ts' : List Token} (d : DiagnosticEngine) (hin : Input e.body fuel ts (t :: ts'))
    (ht : reach t.kind = 0) :
    (calls o (fuel + 1)).expr ⟨ts ++ t :: ts', d⟩ = some (e, ⟨t :: ts', d⟩) :=
  h.1.expr h.2 d hin ht

theorem Readable.genericArg {e : Expr} (h : Readable o e) {fuel : Nat} {ts : List Token}
    {t : Token} {ts' : List Token} (d : DiagnosticEngine) (hin : Input e.body fuel ts (t :: ts'))
    (ht : reach t.kind = 0) :
    parseGenericArg o (calls o (fuel + 1)) ⟨ts ++ t :: ts', d⟩ = some (e, ⟨t :: ts', d⟩) := by
  have hrun := h.expr d hin ht
  have hkinds : ∀ kind ∈ exprStarts, startsTypeOnly kind = false := by decide
  obtain ⟨t', ts, rfl, ht'⟩ := h.2.token hin
  rw [parseGenericArg, List.cons_append, run_bind run_current, hkinds _ ht']
  exact hrun

theorem readsArgs_call {args : List Expr} (h : ∀ e ∈ args, Readable o e) (fuel : Nat) :
    ReadsArgs .rParen (callArg (calls o (fuel + 1))) fuel args := by
  intro e he n ts t ts' d hin ht
  have hfacts : reach t.kind = 0 ∧ t.kind ≠ .dotDotDot ∧ t.kind ≠ .semicolon := by
    rcases ht with ht | ht <;> rw [ht] <;> decide
  obtain ⟨hreach, hdots, hsemicolon⟩ := hfacts
  have hspread : (do if ← matchKind .dotDotDot then return Expr.spread e else return e :
      ParserM Expr) ⟨t :: ts', d⟩ = some (e, ⟨t :: ts', d⟩) := by
    rw [run_bind (run_match_ne hdots)]
    rfl
  have hskip : skipSemicolons (n + 1) ⟨t :: ts', d⟩ = some ((), ⟨t :: ts', d⟩) := by
    rw [skipSemicolons, run_bind (run_match_ne hsemicolon)]
    rfl
  rw [callArg, run_bind ((h e he).expr d hin hreach), run_bind hspread, run_bind hskip]
  rfl

theorem readsArgs_index {args : List Expr} (h : ∀ e ∈ args, Readable o e) (fuel : Nat) :
    ReadsArgs .rBracket (fun _ => parseGenericArg o (calls o (fuel + 1))) fuel args := by
  intro e he n ts t ts' d hin ht
  exact (h e he).genericArg d hin (by rcases ht with ht | ht <;> rw [ht] <;> rfl)

/-- The place of the last of some tokens is not that of another. -/
theorem Input.apart_last {ls : List Lexeme} {fuel : Nat} {ts : List Token} {t : Token}
    {rest : List Token} (h : Input ls fuel (ts ++ [t]) rest) :
    ∀ t' ∈ ts, t'.location.offset ≠ t.location.offset := fun t' ht' =>
  (List.pairwise_append.1 h.apart).2.2 t' ht' t (List.mem_singleton_self t)

theorem extends_call {args : List Expr} (h : ∀ e ∈ args, Readable o e) :
    Extends o (lParen :: bodies args ++ [rParen]) fun e => .call e args := by
  intro fuel fuel' toks u us d e hin hfuel hreach
  rw [List.cons_append] at hin
  obtain ⟨t, ts, n, rfl, rfl, ht, -, hin⟩ := hin.cons
  obtain ⟨ts, t', rfl, ht', hts⟩ := hin.concat
  have ht : t.kind = .lParen := ht
  have ht' : t'.kind = .rParen := ht'
  simp only [List.cons_append, List.length_cons, List.length_append, List.length_nil] at hfuel
  obtain ⟨m, rfl⟩ : ∃ m, fuel' = m + 1 := ⟨fuel' - 1, by omega⟩
  refine ⟨m, by rw [List.length_cons]; omega, ?_⟩
  have hargs : parseArgs (calls o (n + 1)) m [] ⟨ts ++ t' :: u :: us, d⟩ =
      some (args, ⟨t' :: u :: us, d⟩) :=
    (isArgLoop_parseArgs (calls o (n + 1))).run (by decide) (fun e he => (h e he).2)
      (readsArgs_call h n) d hts ht' hin.apart_last (by
        simp only [List.length_append, List.length_cons]
        omega)
  rw [postfixLoop, List.cons_append, run_bind run_current, ht]
  show (advance >>= _) _ = _
  rw [run_bind (run_advance (by rw [ht]; decide)), List.append_assoc, List.singleton_append,
    run_bind hargs, run_bind (run_expect ht' (by decide) _)]

/-- The first argument is read before it is clear that this is no slice. -/
theorem run_index_first {a : Expr} (ha : Readable o a) {e : Expr} {t : Token}
    (ht : t.kind = .lBracket) {n m : Nat} {ts : List Token} {c : Token} {ts' : List Token}
    (d : DiagnosticEngine) (hin : Input a.body n ts (c :: ts'))
    (hc : c.kind = .comma ∨ c.kind = .rBracket) :
    parseIndexOrSliceExpr o (calls o (n + 1)) m e ⟨t :: (ts ++ c :: ts'), d⟩ = (do
      if !(← check .rBracket) then let _ ← expect .comma "','"
      let args ← parseGenericArgListTail o (calls o (n + 1)) m [a]
      let _ ← expect .rBracket "']'"
      return Expr.indexOrInstantiate e args : ParserM Expr) ⟨c :: ts', d⟩ := by
  have hkinds : ∀ kind ∈ exprStarts, kind ≠ .dotDot ∧ startsTypeOnly kind = false := by decide
  have hcdots : c.kind ≠ .dotDot := by rcases hc with hc | hc <;> rw [hc] <;> decide
  have hrun := ha.genericArg d hin (by rcases hc with hc | hc <;> rw [hc] <;> rfl)
  obtain ⟨t', ts, rfl, ht'⟩ := ha.2.token hin
  obtain ⟨hdots, htype⟩ := hkinds _ ht'
  rw [List.cons_append] at hrun
  rw [parseIndexOrSliceExpr, run_bind (run_expect ht (by decide) _), List.cons_append,
    run_bind (run_match_ne hdots)]
  show (current >>= _) _ = _
  rw [run_bind run_current, htype, run_bind hrun]
  show (matchKind .dotDot >>= _) _ = _
  rw [run_bind (run_match_ne hcdots)]
  rfl

theorem extends_index {args : List Expr} (h : ∀ e ∈ args, Readable o e) (hne : args ≠ []) :
    Extends o ((.lBracket, ['[']) :: bodies args ++ [(.rBracket, [']'])])
      fun e => .indexOrInstantiate e args := by
  intro fuel fuel' toks u us d e hin hfuel hreach
  rw [List.cons_append] at hin
  obtain ⟨t, ts, n, rfl, rfl, ht, -, hin⟩ := hin.cons
  obtain ⟨ts, t', rfl, ht', hts⟩ := hin.concat
  have ht : t.kind = .lBracket := ht
  have ht' : t'.kind = .rBracket := ht'
  simp only [List.cons_append, List.length_cons, List.length_append, List.length_nil] at hfuel
  obtain ⟨m, rfl⟩ : ∃ m, fuel' = m + 1 := ⟨fuel' - 1, by omega⟩
  refine ⟨m, by rw [List.length_cons]; omega, ?_⟩
  have hindex : parseIndexOrSliceExpr o (calls o (n + 1)) m e ⟨t :: (ts ++ t' :: u :: us), d⟩ =
      some (.indexOrInstantiate e args, ⟨u :: us, d⟩) := by
    obtain ⟨a, es, rfl⟩ := List.exists_cons_of_ne_nil hne
    obtain ⟨ha, hes⟩ := List.forall_mem_cons.1 h
    have hrest {ts' : List Token} (hin' : Input (bodies es) n ts' (t' :: u :: us))
        (hsub : ∀ t ∈ ts', t ∈ ts) (hle : ts'.length ≤ ts.length) :
        parseGenericArgListTail o (calls o (n + 1)) m [a] ⟨ts' ++ t' :: u :: us, d⟩ =
          some (a :: es, ⟨t' :: u :: us, d⟩) :=
      (isArgLoop_parseGenericArgListTail (calls o (n + 1))).run (by decide)
        (fun e he => (hes e he).2)
        (readsArgs_index hes n) d hin' ht' (fun t ht => hin.apart_last t (hsub t ht)) (by
          simp only [List.length_append, List.length_cons]
          omega)
    rcases es with _ | ⟨a', es⟩
    · rw [run_index_first ha ht d hts (.inr ht'), run_bind run_check, decide_eq_true ht']
      show (parseGenericArgListTail o _ m [a] >>= _) _ = _
      have henough := hts.enough
      rw [List.length_append] at henough
      have hdone : Input (bodies []) n [] (t' :: u :: us) :=
        ⟨rfl, .nil, by rw [List.nil_append]; omega⟩
      have hrun := hrest hdone (fun t ht => absurd ht List.not_mem_nil) (Nat.zero_le _)
      rw [List.nil_append] at hrun
      rw [run_bind hrun, run_bind (run_expect ht' (by decide) _)]
      rfl
    · obtain ⟨ts, c, ts', k, rfl, rfl, hc, htoks, hts'⟩ := hts.split
      have hne : c.kind ≠ .rBracket := by
        rw [hc]
        decide
      rw [List.append_assoc, List.cons_append, run_index_first ha ht d htoks (.inl hc),
        run_bind run_check, decide_eq_false hne]
      show (expect .comma "','" >>= _) _ = _
      rw [run_bind (run_expect hc (by decide) _)]
      show (parseGenericArgListTail o _ m [a] >>= _) _ = _
      rw [run_bind (hrest (hts'.mono (Nat.le_succ k)) (by simp +contextual) (by simp; omega)),
        run_bind (run_expect ht' (by decide) _)]
      rfl
  rw [postfixLoop, List.cons_append, run_bind run_current, ht]
  show (parseIndexOrSliceExpr o (calls o (n + 1)) m e >>= _) _ = _
  rw [List.append_assoc, List.singleton_append, run_bind hindex]

/-! ## Prefixes, conditions and assignments -/

theorem at_unary {op : UnaryOp} (hop : op ≠ .deref) {e : Expr} {ls : List Lexeme}
    (h : At o 14 e ls) : At o 14 (.unary op e) (prefixLexeme op :: ls) := by
  intro fuel toks u us d hin hreach
  obtain ⟨t, ts, n, rfl, rfl, ht, -, hin⟩ := hin.cons
  have hrun : (calls o (n + 1)).unary ⟨ts ++ u :: us, d⟩ = some (e, ⟨u :: us, d⟩) :=
    h.reads n ts u us d hin hreach
  have hfacts : t.kind ≠ .eof ∧ t.kind ≠ .kwTry ∧ t.kind ≠ .plusPlus ∧ t.kind ≠ .minusMinus ∧
      matchUnaryOp t.kind = some op := by
    rw [ht]
    cases op <;> first | exact absurd rfl hop | decide
  obtain ⟨heof, htry, hplus, hminus, hop⟩ := hfacts
  rw [routine_unary, List.cons_append, run_bind run_current]
  simp only [htry, hplus, hminus, hop, decide_false, Bool.or_self, if_false]
  show (advance >>= _) _ = _
  rw [run_bind (run_advance heof), run_bind hrun]
  rfl

theorem at_incrDecr (isIncrement : Bool) {e : Expr} {ls : List Lexeme} (h : At o 14 e ls) :
    At o 14 (.incrDecr e isIncrement true) (incrDecrLexeme isIncrement :: ls) := by
  intro fuel toks u us d hin hreach
  obtain ⟨t, ts, n, rfl, rfl, ht, -, hin⟩ := hin.cons
  have hrun : (calls o (n + 1)).unary ⟨ts ++ u :: us, d⟩ = some (e, ⟨u :: us, d⟩) :=
    h.reads n ts u us d hin hreach
  have hfacts : t.kind ≠ .eof ∧ t.kind ≠ .kwTry ∧
      (decide (t.kind = .plusPlus) || decide (t.kind = .minusMinus)) = true ∧
      decide (t.kind = .plusPlus) = isIncrement := by
    rw [ht]
    cases isIncrement <;> decide
  obtain ⟨heof, htry, hincr, hplus⟩ := hfacts
  rw [hplus] at hincr
  rw [routine_unary, List.cons_append, run_bind run_current]
  simp only [htry, if_false, hplus, hincr, if_true]
  rw [run_bind (run_advance heof), run_bind hrun]
  rfl

theorem at_tryExpr {e : Expr} {ls : List Lexeme} (h : At o 15 e ls) :
    At o 14 (.tryExpr e) ((.kwTry, ['t', 'r', 'y']) :: ls) := by
  intro fuel toks u us d hin hreach
  obtain ⟨t, ts, n, rfl, rfl, ht, -, hin⟩ := hin.cons
  have ht : t.kind = .kwTry := ht
  have hrun := h.reads (n + 1) ts u us d (hin.mono (Nat.le_succ n)) (Nat.le_succ_of_le hreach)
  rw [routine_unary, List.cons_append, run_bind run_current]
  simp only [ht, if_true]
  rw [run_bind (run_advance (by rw [ht]; decide)), run_bind hrun]
  rfl

theorem at_in {lhs rhs : Expr} {ls ls' : List Lexeme} (hlhs : At o 6 lhs ls)
    (hrhs : At o 6 rhs ls') : At o 5 (.binary .in lhs rhs) (ls ++ binaryLexeme .in :: ls') := by
  intro fuel toks u us d hin hreach
  obtain ⟨toks, t, ts, n, rfl, rfl, ht, htoks, hts⟩ := hin.split
  have ht : t.kind = .kwIn := ht
  have hleft := hlhs.reads (n + 1) toks t (ts ++ u :: us) d htoks (by rw [ht]; decide)
  have hright := hrhs.reads (n + 1) ts u us d (hts.mono (Nat.le_succ n))
    (Nat.le_succ_of_le hreach)
  rw [routine_in, List.append_assoc, List.cons_append, run_bind hleft,
    run_bind (run_match ht (by decide))]
  show (routine o (n + 1) 6 >>= _) _ = _
  rw [run_bind hright]
  rfl

theorem at_ternary {condition thenExpr elseExpr : Expr} {ls : List Lexeme}
    (hcondition : At o 3 condition ls) (hthen : Readable o thenExpr)
    (helse : Readable o elseExpr) :
    At o 2 (.ternary condition thenExpr elseExpr)
      (ls ++ (.question, ['?']) :: thenExpr.body ++ (.colon, [':']) :: elseExpr.body) := by
  intro fuel toks u us d hin hreach
  rw [List.append_assoc, List.cons_append] at hin
  obtain ⟨toks, t, ts, n, rfl, rfl, ht, htoks, hin⟩ := hin.split
  obtain ⟨ts, t', ts', m, rfl, rfl, ht', hts, hts'⟩ := hin.split
  have ht : t.kind = .question := ht
  have ht' : t'.kind = .colon := ht'
  have hreach := Nat.le_zero.1 hreach
  have hleft := hcondition.reads (m + 1 + 1) toks t (ts ++ t' :: ts' ++ u :: us) d htoks
    (by rw [ht]; decide)
  have hmiddle := hthen.expr d hts (by rw [ht']; rfl)
  have hright := helse.expr d (hts'.mono (Nat.le_succ m)) hreach
  rw [routine_ternary, List.append_assoc, List.cons_append, run_bind hleft,
    run_bind (run_match ht (by decide))]
  show ((calls o (m + 1 + 1)).expr >>= _) _ = _
  rw [List.append_assoc, List.cons_append, run_bind hmiddle,
    run_bind (run_expect ht' (by decide) _), run_bind hright]
  rfl

theorem at_whenExpr {condition thenExpr elseExpr : Expr} {ls ls' : List Lexeme}
    (hcondition : At o 2 condition ls') (hthen : At o 3 thenExpr ls)
    (helse : Readable o elseExpr) :
    At o 1 (.whenExpr condition thenExpr elseExpr)
      (ls ++ (.kwWhen, ['w', 'h', 'e', 'n']) :: ls' ++
        (.kwElse, ['e', 'l', 's', 'e']) :: elseExpr.body) := by
  intro fuel toks u us d hin hreach
  rw [List.append_assoc, List.cons_append] at hin
  obtain ⟨toks, t, ts, n, rfl, rfl, ht, htoks, hin⟩ := hin.split
  obtain ⟨ts, t', ts', m, rfl, rfl, ht', hts, hts'⟩ := hin.split
  have ht : t.kind = .kwWhen := ht
  have ht' : t'.kind = .kwElse := ht'
  have hreach := Nat.le_zero.1 hreach
  have hleft := (Reads.ternary hthen.reads) (m + 1 + 1) toks t (ts ++ t' :: ts' ++ u :: us) d htoks
    (by rw [ht]; decide)
  have hmiddle := hcondition.reads (m + 1 + 1) ts t' (ts' ++ u :: us) d
    (hts.mono (Nat.le_succ _)) (by rw [ht']; decide)
  have hright := helse.expr d (hts'.mono (Nat.le_succ m)) hreach
  rw [routine_when, List.append_assoc, List.cons_append, run_bind hleft,
    run_bind (run_match ht (by decide))]
  show (routine o (m + 1 + 1) 2 >>= _) _ = _
  rw [List.append_assoc, List.cons_append, run_bind hmiddle,
    run_bind (run_expect ht' (by decide) _), run_bind hright]
  rfl

theorem at_assign (op : AssignOp) {target value : Expr} {ls : List Lexeme}
    (htarget : At o 3 target ls) (hvalue : At o 0 value value.body) :
    At o 0 (.assign op target value) (ls ++ assignLexeme op :: value.body) := by
  intro fuel toks u us d hin hreach
  obtain ⟨toks, t, ts, n, rfl, rfl, ht, htoks, hts⟩ := hin.split
  have hfacts : reach t.kind ≤ 1 ∧ t.kind ≠ .eof ∧ matchAssignOp t.kind = some op := by
    rw [ht]
    cases op <;> decide
  obtain ⟨hone, heof, hop⟩ := hfacts
  have hleft := (Reads.whenExpr (Reads.ternary htarget.reads)) (n + 1) toks t
    (ts ++ u :: us) d htoks
    (hone.trans (by decide))
  have hright : (calls o (n + 1)).assignExpr ⟨ts ++ u :: us, d⟩ = some (value, ⟨u :: us, d⟩) :=
    hvalue.reads n ts u us d hts hreach
  rw [routine_assign, List.append_assoc, List.cons_append, run_bind hleft,
    run_bind run_current, hop]
  show (advance >>= _) _ = _
  rw [run_bind (run_advance heof), run_bind hright]
  rfl

/-! ## Every expression -/

/-- What is read back of an expression: the lexemes of it, on its level. -/
structure ReadBack (o : Others) (e : Expr) : Prop where
  own : At o e.level e e.body
  starts : Starts exprStarts e.body
  operand : 15 ≤ e.level → Starts operandStarts e.body

theorem Starts.mono {kinds kinds' : List TokenKind} {ls : List Lexeme} (h : Starts kinds ls)
    (hsub : ∀ kind ∈ kinds, kind ∈ kinds') : Starts kinds' ls := by
  obtain ⟨l, hl, hkind⟩ := h
  exact ⟨l, hl, hsub _ hkind⟩

theorem operandStarts_sub : ∀ kind ∈ operandStarts, kind ∈ exprStarts := by decide

theorem level_le (e : Expr) : e.level ≤ 16 := by
  cases e with
  | binary op => cases op <;> simp [Expr.level, binaryLevel]
  | unary op => cases op <;> simp [Expr.level]
  | incrDecr _ _ isPrefix => cases isPrefix <;> simp [Expr.level]
  | _ => simp [Expr.level]

namespace ReadBack

variable {e : Expr} (h : ReadBack o e)

include h

theorem readable : Readable o e :=
  ⟨h.own.of_le (Nat.zero_le _) (level_le e) h.operand, h.starts⟩

/-- An expression is read where it is printed, with the parentheses that it needs there. -/
theorem printAt {level : Nat} (hlevel : level ≤ 16) : At o level e (e.printAt level) := by
  rw [Expr.printAt, bracketed]
  split
  · exact (at_parenthesized h.readable.1 h.starts).of_le hlevel (Nat.le_refl _) fun _ =>
      ⟨lParen, rfl, by decide⟩
  · exact h.own.of_le (by omega) (level_le e) h.operand

theorem starts_printAt (level : Nat) : Starts exprStarts (e.printAt level) := by
  rw [Expr.printAt, bracketed]
  split
  · exact ⟨lParen, rfl, by decide⟩
  · exact h.starts

theorem operand_printAt {level : Nat} (hlevel : 15 ≤ level) :
    Starts operandStarts (e.printAt level) := by
  rw [Expr.printAt, bracketed]
  split
  · exact ⟨lParen, rfl, by decide⟩
  · exact h.operand (by omega)

end ReadBack

/-- An expression whose level takes something behind an operand. -/
theorem readBack_postfixed {e : Expr} (h : ReadBack o e) {ls : List Lexeme} {f : Expr → Expr}
    (hext : Extends o ls f) (hstart : Starts postfixStarts ls) (hlevel : (f e).level = 15)
    (hbody : (f e).body = e.printAt 15 ++ ls) : ReadBack o (f e) := by
  have hoperand : Starts operandStarts (f e).body := by
    rw [hbody]
    exact (h.operand_printAt (Nat.le_refl _)).append ls
  refine ⟨?_, hoperand.mono operandStarts_sub, fun _ => hoperand⟩
  rw [hlevel, hbody]
  exact (h.printAt (by decide)).postfixed hext hstart

theorem readBack_of_lt {e : Expr} (hlevel : e.level < 15) (hat : At o e.level e e.body)
    (hstart : Starts exprStarts e.body) : ReadBack o e :=
  ⟨hat, hstart, fun h => absurd hlevel (Nat.not_lt.2 h)⟩

theorem readBack_of_operand {e : Expr} (hlevel : e.level = 16) (hat : At o 16 e e.body)
    (hstart : Starts operandStarts e.body) : ReadBack o e :=
  ⟨hlevel ▸ hat, hstart.mono operandStarts_sub, fun _ => hstart⟩

theorem readBack_unary (op : UnaryOp) {e : Expr} (h : ReadBack o e) : ReadBack o (.unary op e) := by
  by_cases hop : op = .deref
  · subst hop
    exact readBack_postfixed h extends_deref ⟨_, rfl, by decide⟩ rfl rfl
  · have hbody : (Expr.unary op e).body = prefixLexeme op :: e.printAt 14 := by
      cases op <;> first | exact absurd rfl hop | rfl
    have hlevel : (Expr.unary op e).level = 14 := by
      cases op <;> first | exact absurd rfl hop | rfl
    have hstart : (prefixLexeme op).1 ∈ exprStarts := by
      cases op <;> first | exact absurd rfl hop | decide
    refine readBack_of_lt (by omega) ?_ ?_
    · rw [hlevel, hbody]
      exact at_unary hop (h.printAt (by decide))
    · rw [hbody]
      exact ⟨_, rfl, hstart⟩

theorem readBack_incrDecr (isIncrement isPrefix : Bool) {e : Expr} (h : ReadBack o e) :
    ReadBack o (.incrDecr e isIncrement isPrefix) := by
  have hstart : (incrDecrLexeme isIncrement).1 ∈ exprStarts := by cases isIncrement <;> decide
  have hpostfix : (incrDecrLexeme isIncrement).1 ∈ postfixStarts := by cases isIncrement <;> decide
  cases isPrefix
  · refine readBack_postfixed h (extends_incrDecr isIncrement) ⟨_, rfl, hpostfix⟩ rfl ?_
    rw [Expr.body]
    rfl
  · have hbody : (Expr.incrDecr e isIncrement true).body =
        incrDecrLexeme isIncrement :: e.printAt 14 := by
      rw [Expr.body]
      rfl
    have hlevel : (Expr.incrDecr e isIncrement true).level = 14 := rfl
    refine readBack_of_lt (by omega) ?_ ?_
    · rw [hlevel, hbody]
      exact at_incrDecr isIncrement (h.printAt (by decide))
    · rw [hbody]
      exact ⟨_, rfl, hstart⟩

theorem readBack_binary (op : BinaryOp) {lhs rhs : Expr} (hlhs : ReadBack o lhs)
    (hrhs : ReadBack o rhs) : ReadBack o (.binary op lhs rhs) := by
  have hle : binaryLevel op ≤ 13 := by cases op <;> decide
  have hbody : (Expr.binary op lhs rhs).body =
      lhs.printAt (lhsLevel op) ++ binaryLexeme op :: rhs.printAt (binaryLevel op + 1) := by
    rw [Expr.body]
    rfl
  have hlevel : (Expr.binary op lhs rhs).level = binaryLevel op := rfl
  refine readBack_of_lt (by omega) ?_ ?_
  · rw [hlevel, hbody]
    by_cases hop : op = .in
    · subst hop
      exact at_in (hlhs.printAt (by decide)) (hrhs.printAt (by decide))
    · rw [lhsLevel, if_neg hop]
      exact (hlhs.printAt (by omega)).binary hop (hrhs.printAt (by omega))
  · rw [hbody]
    exact (hlhs.starts_printAt _).append _

/-- Every routine reads back what is printed at its level. -/
theorem readBack {e : Expr} (h : e.Plain) : ReadBack o e := by
  induction h with
  | literalInteger value =>
    exact readBack_of_operand rfl (at_literalInteger value) ⟨_, rfl, by simp [operandStarts]⟩
  | literalBool value =>
    refine readBack_of_operand rfl (at_literalBool value) ?_
    cases value <;> exact ⟨_, rfl, by decide⟩
  | @ident name hname =>
    exact readBack_of_operand rfl (at_ident name) ⟨_, rfl, by simp [operandStarts]⟩
  | unary op _ ih => exact readBack_unary op ih
  | incrDecr isIncrement isPrefix _ ih => exact readBack_incrDecr isIncrement isPrefix ih
  | tryExpr _ ih =>
    exact readBack_of_lt (by simp [Expr.level]) (at_tryExpr (ih.printAt (by decide)))
      ⟨_, rfl, by decide⟩
  | binary op _ _ ihl ihr => exact readBack_binary op ihl ihr
  | ternary _ _ _ ihc iht ihe =>
    exact readBack_of_lt (by simp [Expr.level])
      (at_ternary (ihc.printAt (by decide)) iht.readable ihe.readable)
      (((ihc.starts_printAt 3).append _).append _)
  | whenExpr _ _ _ ihc iht ihe =>
    exact readBack_of_lt (by simp [Expr.level])
      (at_whenExpr (ihc.printAt (by decide)) (iht.printAt (by decide)) ihe.readable)
      (((iht.starts_printAt 3).append _).append _)
  | assign op _ _ iht ihv =>
    exact readBack_of_lt (by simp [Expr.level])
      (at_assign op (iht.printAt (by decide)) ihv.readable.1)
      ((iht.starts_printAt 3).append _)
  | call _ _ ihc iha =>
    exact readBack_postfixed ihc (extends_call fun e he => (iha e he).readable)
      ⟨_, rfl, by decide⟩ rfl (List.append_assoc _ _ _)
  | index _ hne _ iho iha =>
    exact readBack_postfixed iho (extends_index (fun e he => (iha e he).readable) hne)
      ⟨_, rfl, by decide⟩ rfl (List.append_assoc _ _ _)
  | member _ _ ih =>
    exact readBack_postfixed ih (extends_member _) ⟨_, rfl, by simp [postfixStarts]⟩ rfl rfl

/-- The parser reads an expression back from tokens with its lexemes, wherever they are, up to
    a token that does not go on with it. -/
theorem parseExpr_of_lexemes {e : Expr} (h : e.Plain) {toks : List Token} {u : Token}
    {us : List Token} (d : DiagnosticEngine) (hlexemes : toks.map Token.toLexeme = e.body)
    (hapart : toks.Pairwise fun t u => t.location.offset ≠ u.location.offset)
    (hreach : reach u.kind = 0) :
    parseExpr o (toks ++ u :: us) d = some (e, ⟨u :: us, d⟩) :=
  (readBack h).readable.expr d ⟨hlexemes, hapart, Nat.le_refl _⟩ hreach

theorem isIdentifier_letter {ch : Char} (hch : (ch.isAlpha || ch == '_') = true)
    (hlookup : keywords.lookup (String.ofList [ch]) = none) : IsIdentifier [ch] :=
  ⟨⟨ch, [], rfl, hch, fun _ h => absurd h List.not_mem_nil⟩, hlookup⟩

theorem parseExpr_of_lexemes_when :
    let token (kind : TokenKind) (lexeme : List Char) (offset : Nat) : Token :=
      ⟨kind, lexeme, { filename := "a.mir", offset }⟩
    parseExpr ⟨outOfFuel, outOfFuel, outOfFuel, fun _ _ => outOfFuel⟩
      ([token .identifier ['a'] 0, token .kwWhen ['w', 'h', 'e', 'n'] 2, token .identifier ['b'] 7,
        token .kwElse ['e', 'l', 's', 'e'] 9, token .identifier ['x'] 14] ++
        [token .semicolon [';'] 15]) {} =
      some (.whenExpr (.ident ['b']) (.ident ['a']) (.ident ['x']),
        ⟨[token .semicolon [';'] 15], {}⟩) := by
  have ha : IsIdentifier ['a'] := isIdentifier_letter (by decide) (by decide)
  have hb : IsIdentifier ['b'] := isIdentifier_letter (by decide) (by decide)
  have hx : IsIdentifier ['x'] := isIdentifier_letter (by decide) (by decide)
  exact parseExpr_of_lexemes (.whenExpr (.ident hb) (.ident ha) (.ident hx)) {} rfl (by decide) rfl

end Mirage.Syntax
