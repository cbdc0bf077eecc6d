import Mathlib.Tactic.Common
import Mirage.Lang.ConstTermination

/-!
# Constants without a value

The classifier and the evaluator are two case analyses of their own, and an expression that
the one calls constant need not have a value for the other. What an evaluation comes to, call
by call, is the relation `Next`; a `Gap` is a call that the evaluator has no value for: a form
it has no case for (a float, `nil`, `default`, a literal of an aggregate, `type_of`, `in`), a
name that is not bound where it is evaluated, a call deeper than the cap, or an operator on a
string.

An expression is `GapFree` when its evaluation comes to an end and to no gap. This decides
whether there is a value: a gap is never recovered from (`gapFree_of_returns`), and without
one an evaluation fails by its arithmetic only (`GapFree.ends`). So an expression that is
classified as constant, and whose arithmetic is defined, has a value if and only if it is
`GapFree` (`constant_has_value_iff`).
-/

namespace Mirage.Consts

open Ast Calls

/-! ## What an evaluation comes to -/

/-- The call for a part, below an operator, a cast or a condition. -/
def EvalCall.sub (c : EvalCall) (e : Expr) : EvalCall := { c with depth := 0, expr := e }

/-- The call for an argument. -/
def EvalCall.arg (c : EvalCall) (e : Expr) : EvalCall := { c with depth := c.depth + 1, expr := e }

/-- A side of a comparison is a `.Variant` without a value of its own, of the enum of the other
    side. -/
def TakesEnum (P : Program) (m : ModulePath) (op : BinaryOp) (side other : Expr) : Prop :=
  (op = .equal ∨ op = .notEqual) ∧ ∃ k x j a, side = .dotIdent k x ∧
    (∃ f, dotIdentValue P m k x = .error f) ∧ P.exprType m other.key = some (.enum j) ∧
      P.enumField j x = some a

/-- The evaluation of a call needs the value of another. -/
def Next (P : Program) (c c' : EvalCall) : Prop :=
  match c.expr with
  | .ident _ x =>
    c.macroArgs.lookup x = none ∧ P.genericEnv.lookup x = none ∧
      ∃ init, P.constInit c.module x = some init ∧
        c' = { c with macroArgs := [], depth := 0, expr := init }
  | .member _ object x =>
    ∃ m, P.resolveMemberObjectImportPath c.module object = some m ∧
      ∃ init, P.constInit m x = some init ∧ c' = ⟨m, [], 0, c.nest, init⟩
  | .unary _ _ operand => c' = c.sub operand
  | .binary _ op lhs rhs =>
    (¬ TakesEnum P c.module op lhs rhs ∧ c' = c.sub lhs) ∨
      (¬ TakesEnum P c.module op rhs lhs ∧ c' = c.sub rhs)
  | .cast _ value => c' = c.sub value
  | .ternary _ cond t e | .whenExpr _ cond t e =>
    c' = c.sub cond ∨ ∃ v, Returns (evaluateConstValueImpl P) (c.sub cond) (.ok (.int v)) ∧
      c' = c.sub (if v ≠ 0 then t else e)
  | .call _ callee es =>
    (∃ e ∈ es, c' = c.arg e) ∨
      ∃ mac vs, P.macroOf c.module callee = some mac ∧
        Evals (evaluateConstValueImpl P) (evaluateArgs c es) (.ok vs) ∧
          c' = ⟨c.module, mac.params.zip vs, c.depth + 1, c.nest + 1, mac.exprTemplate⟩
  | _ => False

/-- The constant is a string. -/
def IsText (P : Program) (c : EvalCall) : Prop :=
  ∃ s, Returns (evaluateConstValueImpl P) c (.ok (.str s))

/-- The evaluator has no value for the call. -/
def Gap (P : Program) (c : EvalCall) : Prop :=
  match c.expr with
  | .literalInteger .. | .literalBool .. | .literalChar .. | .literalString .. | .cast ..
  | .sizeOf .. | .alignOf .. => False
  | .leaf _ kind => kind ≠ .rttiEnabled
  | .ident _ x =>
    c.macroArgs.lookup x = none ∧ P.genericEnv.lookup x = none ∧ P.constInit c.module x = none
  | .member _ object x =>
    (P.resolveMemberObjectImportPath c.module object).bind (P.constInit · x) = none
  | .dotIdent k x => ∃ f, dotIdentValue P c.module k x = .error f
  | .bitsetExpr k members => ∃ f, bitsetValue P c.module k members = .error f
  | .option k _ _ => P.optionValue c.module k = none
  | .unary _ op operand => op = .addressOf ∨ op = .deref ∨ IsText P (c.sub operand)
  | .binary _ op lhs rhs => op = .in ∨ IsText P (c.sub lhs) ∨ IsText P (c.sub rhs)
  | .ternary _ cond _ _ | .whenExpr _ cond _ _ => IsText P (c.sub cond)
  | .call _ callee es =>
    ∀ mac, P.macroOf c.module callee = some mac → es.length = mac.params.length →
      maxMacroEvalDepth ≤ c.depth
  | _ => True

/-- The evaluation comes to an end and to no gap. -/
inductive GapFree (P : Program) : EvalCall → Prop
  | intro {c : EvalCall} (gap : ¬ Gap P c) (next : ∀ c', Next P c c' → GapFree P c') : GapFree P c

/-! ## A gap is not recovered from -/

section

variable {P : Program} {c : EvalCall}

/-- What is known of a call that an evaluation has made. -/
def Made (P : Program) (c : EvalCall) (r : Outcome) : Prop :=
  Returns (evaluateConstValueImpl P) c r ∧ ∀ v, r = .ok v → GapFree P c

theorem not_isText_of_int {v : BitVec 64}
    (h : Returns (evaluateConstValueImpl P) c (.ok (.int v))) : ¬ IsText P c := by
  rintro ⟨s, hs⟩
  cases h.unique hs

theorem asInt_eq_ok {r : Outcome} {v : BitVec 64} (h : asInt r = .ok v) : r = .ok (.int v) := by
  match r, h with
  | .ok (.int _), rfl => rfl

theorem foldValue_eq_ok {r : Except Failure (BitVec 64)} {g : BitVec 64 → Except Failure Value}
    {v : Value} (h : (r >>= g) = .ok v) : ∃ u, r = .ok u ∧ g u = .ok v := by
  cases r with
  | ok u => exact ⟨u, rfl, h⟩
  | error f => cases h

/-- A side of a comparison with a value has one of its own or takes it from the other side. -/
theorem made_of_resolveSide {op : BinaryOp} {side other : Expr} {v : BitVec 64}
    (hop : op = .equal ∨ op = .notEqual)
    (h : EvalsBy (Made P) (resolveSide P c side other) (.ok v)) :
    Made P (c.sub side) (.ok (.int v)) ∨
      (TakesEnum P c.module op side other ∧ ¬ IsText P (c.sub side)) := by
  obtain ⟨r, hr, h⟩ := evalsBy_bind.1 h
  have hr := evalsBy_call.1 hr
  cases r with
  | ok u =>
    have h := evalsBy_pure.1 h
    rw [← asInt_eq_ok h]
    exact .inl hr
  | error f =>
    refine .inr ⟨⟨hop, ?_⟩, fun ⟨s, hs⟩ => nomatch hr.1.unique hs⟩
    cases side with
    | dotIdent k x =>
      dsimp only at h
      split at h
      · rename_i j hty
        have h := evalsBy_pure.1 h
        cases ha : P.enumField j x with
        | none =>
          rw [ha] at h
          cases h
        | some a =>
          have hdot := returns_iff.1 hr.1
          exact ⟨k, x, j, a, rfl, ⟨f, evals_pure.1 hdot⟩, hty, ha⟩
      · cases evalsBy_pure.1 h
    | _ => cases evalsBy_pure.1 h

theorem made_of_evaluateArgs {es : List Expr} {vs : List Value}
    (h : EvalsBy (Made P) (evaluateArgs c es) (.ok vs)) {e : Expr} (he : e ∈ es) :
    ∃ v, Made P (c.arg e) (.ok v) := by
  induction es generalizing vs with
  | nil => cases he
  | cons e' es ih =>
    obtain ⟨r, hr, h⟩ := evalsBy_bind.1 h
    have hr := evalsBy_call.1 hr
    cases r with
    | error f => cases evalsBy_pure.1 h
    | ok v =>
      obtain ⟨r', hr', h⟩ := evalsBy_bind.1 h
      have h := evalsBy_pure.1 h
      rcases List.mem_cons.1 he with rfl | he
      · exact ⟨v, hr⟩
      · cases r' with
        | error f => cases h
        | ok vs' => exact ih hr' he

theorem gapFree_binary {m : ModulePath} {args : List (Name × Value)} {d nest : Nat} {k : ExprKey}
    {op : BinaryOp} {lhs rhs : Expr} {v : Value}
    (h : EvalsBy (Made P) (evaluateConstValueImpl P ⟨m, args, d, nest, .binary k op lhs rhs⟩)
      (.ok v)) : GapFree P ⟨m, args, d, nest, .binary k op lhs rhs⟩ := by
  rw [evaluateConstValueImpl] at h
  dsimp only at h
  -- either side has a value of its own, unless it takes its enum from the other
  have hsides : op ≠ .in ∧ ∀ s o, (s = lhs ∧ o = rhs) ∨ (s = rhs ∧ o = lhs) →
      (∃ u, Made P ⟨m, args, 0, nest, s⟩ (.ok (.int u))) ∨
        (TakesEnum P m op s o ∧ ¬ IsText P ⟨m, args, 0, nest, s⟩) := by
    split at h
    · rename_i hop
      obtain ⟨l, hl, h⟩ := evalsBy_bind.1 h
      obtain ⟨r, hr, h⟩ := evalsBy_bind.1 h
      obtain ⟨a, rfl, hfold⟩ := foldValue_eq_ok (evalsBy_pure.1 h)
      obtain ⟨b, rfl, -⟩ := foldValue_eq_ok hfold
      refine ⟨by rcases hop with rfl | rfl <;> decide, ?_⟩
      rintro s o (⟨rfl, rfl⟩ | ⟨rfl, rfl⟩)
      · exact (made_of_resolveSide hop hl).imp_left fun h => ⟨a, h⟩
      · exact (made_of_resolveSide hop hr).imp_left fun h => ⟨b, h⟩
    · obtain ⟨l, hl, h⟩ := evalsBy_bind.1 h
      obtain ⟨r, hr, h⟩ := evalsBy_bind.1 h
      obtain ⟨a, ha, hfold⟩ := foldValue_eq_ok (evalsBy_pure.1 h)
      obtain ⟨b, hb, hfold⟩ := foldValue_eq_ok hfold
      obtain rfl := asInt_eq_ok ha
      obtain rfl := asInt_eq_ok hb
      refine ⟨?_, ?_⟩
      · rintro rfl
        cases hfold
      · rintro s o (⟨rfl, rfl⟩ | ⟨rfl, rfl⟩)
        · exact .inl ⟨a, evalsBy_call.1 hl⟩
        · exact .inl ⟨b, evalsBy_call.1 hr⟩
  obtain ⟨hin, hside⟩ := hsides
  have htext : ∀ s o, (s = lhs ∧ o = rhs) ∨ (s = rhs ∧ o = lhs) →
      ¬ IsText P ⟨m, args, 0, nest, s⟩ := fun s o hs => by
    rcases hside s o hs with ⟨u, hu⟩ | ⟨-, hno⟩
    · exact not_isText_of_int hu.1
    · exact hno
  have hfree : ∀ s o, (s = lhs ∧ o = rhs) ∨ (s = rhs ∧ o = lhs) → ¬ TakesEnum P m op s o →
      GapFree P ⟨m, args, 0, nest, s⟩ := fun s o hs hno => by
    rcases hside s o hs with ⟨u, hu⟩ | ⟨htakes, -⟩
    · exact hu.2 _ rfl
    · exact absurd htakes hno
  refine ⟨?_, ?_⟩
  · rintro (rfl | hl | hr)
    · exact hin rfl
    · exact htext _ _ (.inl ⟨rfl, rfl⟩) hl
    · exact htext _ _ (.inr ⟨rfl, rfl⟩) hr
  · rintro c' (⟨hno, rfl⟩ | ⟨hno, rfl⟩)
    · exact hfree _ _ (.inl ⟨rfl, rfl⟩) hno
    · exact hfree _ _ (.inr ⟨rfl, rfl⟩) hno

theorem gapFree_branch {cond t e : Expr} {v : Value}
    (h : EvalsBy (Made P) (do
      match asInt (← call { c with depth := 0, expr := cond }) with
      | .ok v => call { c with depth := 0, expr := if v ≠ 0 then t else e }
      | .error f => pure (.error f)) (.ok v)) :
    ¬ IsText P (c.sub cond) ∧ ∀ c', (c' = c.sub cond ∨
      ∃ v, Returns (evaluateConstValueImpl P) (c.sub cond) (.ok (.int v)) ∧
        c' = c.sub (if v ≠ 0 then t else e)) → GapFree P c' := by
  obtain ⟨r, hr, h⟩ := evalsBy_bind.1 h
  have hr := evalsBy_call.1 hr
  cases ha : asInt r with
  | error f =>
    rw [ha] at h
    cases evalsBy_pure.1 h
  | ok u =>
    rw [ha] at h
    obtain rfl := asInt_eq_ok ha
    refine ⟨not_isText_of_int hr.1, ?_⟩
    rintro c' (rfl | ⟨w, hw, rfl⟩)
    · exact hr.2 _ rfl
    · obtain ⟨⟩ := hr.1.unique hw
      exact (evalsBy_call.1 h).2 v rfl

theorem gapFree_call {m : ModulePath} {args : List (Name × Value)} {d nest : Nat} {k : ExprKey}
    {callee : Expr} {es : List Expr} {v : Value}
    (h : EvalsBy (Made P) (evaluateConstValueImpl P ⟨m, args, d, nest, .call k callee es⟩)
      (.ok v)) : GapFree P ⟨m, args, d, nest, .call k callee es⟩ := by
  rw [evaluateConstValueImpl] at h
  dsimp only at h
  cases hmac : P.macroOf m callee with
  | none =>
    rw [hmac] at h
    cases evalsBy_pure.1 h
  | some mac =>
    rw [hmac] at h
    dsimp only at h
    split at h
    · rename_i hcap
      obtain ⟨r, hr, h⟩ := evalsBy_bind.1 h
      cases r with
      | error f => cases evalsBy_pure.1 h
      | ok vs =>
        refine ⟨fun hg => absurd hcap.2 (Nat.not_lt.2 (hg mac hmac hcap.1)), ?_⟩
        rintro c' (⟨e, he, rfl⟩ | ⟨mac', vs', hmac', hvs', rfl⟩)
        · obtain ⟨u, hu⟩ := made_of_evaluateArgs hr he
          exact hu.2 u rfl
        · obtain rfl := Option.some.inj (hmac.symm.trans hmac')
          obtain ⟨⟩ := (hr.evals fun _ _ h => h.1).unique hvs'
          exact (evalsBy_call.1 h).2 v rfl
    · cases evalsBy_pure.1 h

end

/-- An evaluation that gives a value has come to no gap. -/
theorem gapFree_of_returns {P : Program} {c : EvalCall} {v : Value}
    (h : Returns (evaluateConstValueImpl P) c (.ok v)) : GapFree P c := by
  refine h.induct (Q := fun c r => ∀ v, r = .ok v → GapFree P c) (fun c r h v hr => ?_) v rfl
  replace h : EvalsBy (Made P) (evaluateConstValueImpl P c) r := h
  subst hr
  obtain ⟨m, args, d, nest, e⟩ := c
  cases e with
  | literalInteger | literalBool | literalChar | literalString | sizeOf | alignOf =>
    exact ⟨not_false, fun c' h' => h'.elim⟩
  | leaf k kind =>
    refine ⟨fun hne => ?_, fun c' h' => h'.elim⟩
    cases kind with
    | rttiEnabled => exact hne rfl
    | _ => cases evalsBy_pure.1 h
  | ident k x =>
    rw [evaluateConstValueImpl] at h
    dsimp only at h
    cases harg : args.lookup x with
    | some u =>
      refine ⟨fun hg => ?_, fun c' h' => ?_⟩
      · cases harg.symm.trans hg.1
      · cases harg.symm.trans h'.1
    | none =>
      rw [harg] at h
      cases hgen : P.genericEnv.lookup x with
      | some u =>
        refine ⟨fun hg => ?_, fun c' h' => ?_⟩
        · cases hgen.symm.trans hg.2.1
        · cases hgen.symm.trans h'.2.1
      | none =>
        rw [hgen] at h
        cases hinit : P.constInit m x with
        | none =>
          rw [hinit] at h
          cases evalsBy_pure.1 h
        | some init =>
          rw [hinit] at h
          refine ⟨fun hg => ?_, fun c' h' => ?_⟩
          · cases hinit.symm.trans hg.2.2
          · obtain ⟨-, -, init', hinit', rfl⟩ := h'
            obtain rfl := Option.some.inj (hinit.symm.trans hinit')
            exact (evalsBy_call.1 h).2 v rfl
  | member k object x =>
    rw [evaluateConstValueImpl] at h
    dsimp only at h
    cases hm : P.resolveMemberObjectImportPath m object with
    | none =>
      rw [hm] at h
      cases evalsBy_pure.1 h
    | some m' =>
      rw [hm] at h
      dsimp only at h
      cases hinit : P.constInit m' x with
      | none =>
        rw [hinit] at h
        cases evalsBy_pure.1 h
      | some init =>
        rw [hinit] at h
        refine ⟨fun hg => ?_, fun c' h' => ?_⟩
        · simp [Gap, hm, hinit] at hg
        · obtain ⟨m'', hm', init', hinit', rfl⟩ := h'
          obtain rfl := Option.some.inj (hm.symm.trans hm')
          obtain rfl := Option.some.inj (hinit.symm.trans hinit')
          exact (evalsBy_call.1 h).2 v rfl
  | dotIdent k x =>
    refine ⟨?_, fun c' h' => h'.elim⟩
    rintro ⟨f, hf⟩
    cases hf.symm.trans (evalsBy_pure.1 h)
  | bitsetExpr k members =>
    refine ⟨?_, fun c' h' => h'.elim⟩
    rintro ⟨f, hf⟩
    cases hf.symm.trans (evalsBy_pure.1 h)
  | option k kind es =>
    refine ⟨fun hnone => ?_, fun c' h' => h'.elim⟩
    have h := evalsBy_pure.1 h
    rw [show P.optionValue m k = none from hnone] at h
    cases h
  | cast k value =>
    refine ⟨not_false, fun c' h' => ?_⟩
    obtain rfl := h'
    exact (evalsBy_call.1 h).2 v rfl
  | unary k op operand =>
    rw [evaluateConstValueImpl] at h
    dsimp only at h
    split at h
    · cases evalsBy_pure.1 h
    · rename_i hop
      obtain ⟨r, hr, h⟩ := evalsBy_bind.1 h
      have hr := evalsBy_call.1 hr
      obtain ⟨u, hu, -⟩ := foldValue_eq_ok (evalsBy_pure.1 h)
      obtain rfl := asInt_eq_ok hu
      refine ⟨?_, fun c' h' => ?_⟩
      · rintro (hop' | hop' | htext)
        · exact hop (.inl hop')
        · exact hop (.inr hop')
        · exact not_isText_of_int hr.1 htext
      · obtain rfl := h'
        exact hr.2 _ rfl
  | binary k op lhs rhs => exact gapFree_binary h
  | ternary k cond t e =>
    obtain ⟨hgap, hnext⟩ := gapFree_branch h
    exact ⟨hgap, hnext⟩
  | whenExpr k cond t e =>
    obtain ⟨hgap, hnext⟩ := gapFree_branch h
    exact ⟨hgap, hnext⟩
  | call k callee es => exact gapFree_call h
  | _ => cases evalsBy_pure.1 h

/-! ## Without a gap only the arithmetic fails -/

/-- A value, or an operation without a result. -/
def Arithmetic {α : Type} (r : Except Failure α) : Prop := r ≠ .error .notConstant

theorem arithmetic_ok {α : Type} (v : α) : Arithmetic (.ok v) := by
  rintro ⟨⟩

section

variable {P : Program} {c : EvalCall}

theorem arithmetic_bind {α β : Type} {r : Except Failure α} {g : α → Except Failure β}
    (hr : Arithmetic r) (hg : ∀ v, Arithmetic (g v)) : Arithmetic (r >>= g) := by
  cases r with
  | ok v => exact hg v
  | error f =>
    cases f with
    | arithmetic => exact nofun
    | notConstant => exact absurd rfl hr

theorem foldUnaryOp_arithmetic {op : UnaryOp} (hop : ¬ (op = .addressOf ∨ op = .deref))
    (v : BitVec 64) : Arithmetic (foldUnaryOp op v) := by
  cases op with
  | addressOf => exact absurd (.inl rfl) hop
  | deref => exact absurd (.inr rfl) hop
  | _ => exact nofun

theorem foldBinaryOp_arithmetic {op : BinaryOp} (hop : op ≠ .in) (a b : BitVec 64) :
    Arithmetic (foldBinaryOp op a b .signed) := by
  cases op with
  | «in» => exact absurd rfl hop
  | div | mod | shiftLeft | shiftRight =>
    simp only [foldBinaryOp]
    split_ifs <;> exact nofun
  | _ => exact nofun

/-- A constant that is not a string is a number. -/
theorem asInt_arithmetic {r : Outcome} (h : Arithmetic r)
    (hret : Returns (evaluateConstValueImpl P) c r) (htext : ¬ IsText P c) :
    Arithmetic (asInt r) := by
  match r with
  | .ok (.int v) => exact nofun
  | .ok (.str s) => exact absurd ⟨s, hret⟩ htext
  | .error .arithmetic => exact nofun
  | .error .notConstant => exact absurd rfl h

/-- The evaluation of a call ends, and fails by its arithmetic only. -/
def EndsArithmetic (P : Program) (c : EvalCall) : Prop :=
  Ends (evaluateConstValueImpl P) (call c) fun r =>
    Returns (evaluateConstValueImpl P) c r ∧ Arithmetic r

theorem endsArithmetic_of_step
    (h : Ends (evaluateConstValueImpl P) (evaluateConstValueImpl P c) Arithmetic) :
    EndsArithmetic P c := by
  obtain ⟨r, hr, harith⟩ := h
  exact ⟨r, evals_call.2 (returns_iff.2 hr), returns_iff.2 hr, harith⟩

theorem resolveSide_arithmetic {op : BinaryOp} {side other : Expr} (htext : ¬ IsText P (c.sub side))
    (h : ¬ TakesEnum P c.module op side other → EndsArithmetic P (c.sub side)) :
    Ends (evaluateConstValueImpl P) (resolveSide P c side other) Arithmetic := by
  by_cases htakes : TakesEnum P c.module op side other
  · obtain ⟨-, k, x, j, a, rfl, ⟨f, hf⟩, hty, ha⟩ := htakes
    have hcall : Ends (evaluateConstValueImpl P) (call (c.sub (.dotIdent k x)))
        fun r => r = .error f := .call (.pure hf)
    refine hcall.bind fun r hr => ?_
    subst hr
    dsimp only
    rw [hty]
    dsimp only
    rw [ha]
    exact .pure nofun
  · refine (h htakes).bind fun r ⟨hret, hr⟩ => ?_
    match r with
    | .ok v => exact .pure (asInt_arithmetic hr hret htext)
    | .error .notConstant => exact absurd rfl hr
    | .error .arithmetic =>
      cases side with
      | dotIdent k x =>
        -- a `.Variant` does not fail by arithmetic
        have hdot := returns_iff.1 hret
        have hdot : dotIdentValue P c.module k x = .error .arithmetic := evals_pure.1 hdot
        rw [dotIdentValue] at hdot
        split at hdot
        · cases hmask : P.bitsetMask _ x <;> rw [hmask] at hdot <;> cases hdot
        · cases hfield : P.enumField _ x <;> rw [hfield] at hdot <;> cases hdot
        · cases hdot
      | _ => exact .pure nofun

theorem evaluateArgs_arithmetic {es : List Expr} (h : ∀ e ∈ es, EndsArithmetic P (c.arg e)) :
    Ends (evaluateConstValueImpl P) (evaluateArgs c es) Arithmetic := by
  induction es with
  | nil => exact .pure nofun
  | cons e es ih =>
    refine (h e List.mem_cons_self).bind fun r ⟨hret, hr⟩ => ?_
    cases r with
    | error f => exact .pure fun heq => hr (by cases heq; rfl)
    | ok v =>
      refine (ih fun e he => h e (List.mem_cons_of_mem _ he)).bind fun vs hvs => .pure ?_
      cases vs with
      | ok vs => exact nofun
      | error f => exact fun heq => hvs (by cases heq; rfl)

end

section

variable {P : Program} {m : ModulePath} {args : List (Name × Value)} {d nest : Nat} {k : ExprKey}

theorem binary_arithmetic {op : BinaryOp} {lhs rhs : Expr} (hin : op ≠ .in)
    (hl : ¬ IsText P ⟨m, args, 0, nest, lhs⟩) (hr : ¬ IsText P ⟨m, args, 0, nest, rhs⟩)
    (hleft : ¬ TakesEnum P m op lhs rhs → EndsArithmetic P ⟨m, args, 0, nest, lhs⟩)
    (hright : ¬ TakesEnum P m op rhs lhs → EndsArithmetic P ⟨m, args, 0, nest, rhs⟩) :
    EndsArithmetic P ⟨m, args, d, nest, .binary k op lhs rhs⟩ := by
  refine endsArithmetic_of_step ?_
  rw [evaluateConstValueImpl]
  dsimp only
  by_cases hop : op = .equal ∨ op = .notEqual
  · rw [if_pos hop]
    refine (resolveSide_arithmetic hl hleft).bind fun l hla => ?_
    refine (resolveSide_arithmetic hr hright).bind fun r hra => .pure ?_
    exact arithmetic_bind hla fun a => arithmetic_bind hra fun b =>
      arithmetic_bind (foldBinaryOp_arithmetic hin a b) fun z => arithmetic_ok _
  · rw [if_neg hop]
    refine (hleft fun h => hop h.1).bind fun l hl' => ?_
    refine (hright fun h => hop h.1).bind fun r hr' => .pure ?_
    exact arithmetic_bind (asInt_arithmetic hl'.2 hl'.1 hl) fun a =>
      arithmetic_bind (asInt_arithmetic hr'.2 hr'.1 hr) fun b =>
        arithmetic_bind (foldBinaryOp_arithmetic hin a b) fun z => arithmetic_ok _

theorem branch_arithmetic {c : EvalCall} {cond t e : Expr} (htext : ¬ IsText P (c.sub cond))
    (hcond : EndsArithmetic P (c.sub cond))
    (hbranch : ∀ v, Returns (evaluateConstValueImpl P) (c.sub cond) (.ok (.int v)) →
      EndsArithmetic P (c.sub (if v ≠ 0 then t else e))) :
    Ends (evaluateConstValueImpl P) (do
      match asInt (← call { c with depth := 0, expr := cond }) with
      | .ok v => call { c with depth := 0, expr := if v ≠ 0 then t else e }
      | .error f => pure (.error f)) Arithmetic := by
  refine hcond.bind fun r ⟨hret, hr⟩ => ?_
  have harith := asInt_arithmetic hr hret htext
  cases ha : asInt r with
  | error f =>
    rw [ha] at harith
    exact .pure fun heq => harith (by cases heq; rfl)
  | ok v =>
    obtain rfl := asInt_eq_ok ha
    exact (hbranch v hret).mono fun _ h => h.2

theorem call_arithmetic {callee : Expr} {es : List Expr} {mac : MacroSymbol}
    (hmac : P.macroOf m callee = some mac) (hlen : es.length = mac.params.length)
    (hd : d < maxMacroEvalDepth)
    (hargs : ∀ e ∈ es, EndsArithmetic P ⟨m, args, d + 1, nest, e⟩)
    (htemplate : ∀ vs, Evals (evaluateConstValueImpl P)
        (evaluateArgs ⟨m, args, d, nest, .call k callee es⟩ es) (.ok vs) →
      EndsArithmetic P ⟨m, mac.params.zip vs, d + 1, nest + 1, mac.exprTemplate⟩) :
    EndsArithmetic P ⟨m, args, d, nest, .call k callee es⟩ := by
  refine endsArithmetic_of_step ?_
  rw [evaluateConstValueImpl]
  dsimp only
  rw [hmac]
  dsimp only
  rw [if_pos ⟨hlen, hd⟩]
  obtain ⟨vs, hvs, harith⟩ := evaluateArgs_arithmetic
    (c := ⟨m, args, d, nest, .call k callee es⟩) hargs
  have hends : Ends (evaluateConstValueImpl P)
      (evaluateArgs ⟨m, args, d, nest, .call k callee es⟩ es) (· = vs) := ⟨vs, hvs, rfl⟩
  refine hends.bind fun r hr => ?_
  subst hr
  cases r with
  | error f => exact .pure fun heq => harith (by cases heq; rfl)
  | ok vs => exact (htemplate vs hvs).mono fun _ h => h.2

end

/-- Without a gap an evaluation ends, and fails by its arithmetic only. -/
theorem GapFree.ends {P : Program} {c : EvalCall} (h : GapFree P c) : EndsArithmetic P c := by
  induction h with
  | @intro c gap _ ih =>
    obtain ⟨m, args, d, nest, e⟩ := c
    cases e with
    | literalInteger | literalBool | literalChar | literalString | sizeOf | alignOf =>
      exact endsArithmetic_of_step (.pure (arithmetic_ok _))
    | leaf k kind =>
      cases kind with
      | rttiEnabled => exact endsArithmetic_of_step (.pure (arithmetic_ok _))
      | _ => exact absurd (by rintro ⟨⟩) gap
    | ident k x =>
      refine endsArithmetic_of_step ?_
      rw [evaluateConstValueImpl]
      dsimp only
      cases harg : args.lookup x with
      | some u => exact .pure (arithmetic_ok _)
      | none =>
        cases hgen : P.genericEnv.lookup x with
        | some u => exact .pure (arithmetic_ok _)
        | none =>
          cases hinit : P.constInit m x with
          | none => exact absurd ⟨harg, hgen, hinit⟩ gap
          | some init => exact (ih _ ⟨harg, hgen, init, hinit, rfl⟩).mono fun _ h => h.2
    | member k object x =>
      refine endsArithmetic_of_step ?_
      rw [evaluateConstValueImpl]
      dsimp only
      cases hm : P.resolveMemberObjectImportPath m object with
      | none => exact absurd (by simp [Gap, hm]) gap
      | some m' =>
        dsimp only
        cases hinit : P.constInit m' x with
        | none => exact absurd (by simp [Gap, hm, hinit]) gap
        | some init => exact (ih _ ⟨m', hm, init, hinit, rfl⟩).mono fun _ h => h.2
    | dotIdent k x =>
      exact endsArithmetic_of_step (.pure fun heq => gap ⟨_, heq⟩)
    | bitsetExpr k members =>
      exact endsArithmetic_of_step (.pure fun heq => gap ⟨_, heq⟩)
    | option k kind es =>
      refine endsArithmetic_of_step (.pure fun heq => ?_)
      cases hv : P.optionValue m k with
      | none => exact gap hv
      | some v =>
        rw [hv] at heq
        cases heq
    | cast k value => exact endsArithmetic_of_step ((ih _ rfl).mono fun _ h => h.2)
    | unary k op operand =>
      have hop : ¬ (op = .addressOf ∨ op = .deref) := fun h =>
        gap (h.imp_right .inl)
      have htext : ¬ IsText P ⟨m, args, 0, nest, operand⟩ := fun h => gap (.inr (.inr h))
      refine endsArithmetic_of_step ?_
      rw [evaluateConstValueImpl]
      dsimp only
      rw [if_neg hop]
      refine (ih _ rfl).bind fun r hr => .pure ?_
      exact arithmetic_bind (asInt_arithmetic hr.2 hr.1 htext) fun u =>
        arithmetic_bind (foldUnaryOp_arithmetic hop u) fun z => arithmetic_ok _
    | binary k op lhs rhs =>
      refine binary_arithmetic (fun h => gap (.inl h)) (fun h => gap (.inr (.inl h)))
        (fun h => gap (.inr (.inr h))) (fun h => ?_) fun h => ?_
      · exact ih _ (.inl ⟨h, rfl⟩)
      · exact ih _ (.inr ⟨h, rfl⟩)
    | ternary k cond t e =>
      exact endsArithmetic_of_step (branch_arithmetic gap (ih _ (.inl rfl))
        fun v hv => ih _ (.inr ⟨v, hv, rfl⟩))
    | whenExpr k cond t e =>
      exact endsArithmetic_of_step (branch_arithmetic gap (ih _ (.inl rfl))
        fun v hv => ih _ (.inr ⟨v, hv, rfl⟩))
    | call k callee es =>
      have hcall : ∃ mac, P.macroOf m callee = some mac ∧ es.length = mac.params.length ∧
          d < maxMacroEvalDepth := by
        by_contra hno
        refine gap fun mac hmac hlen => Nat.not_lt.1 fun hd => hno ⟨mac, hmac, hlen, hd⟩
      obtain ⟨mac, hmac, hlen, hd⟩ := hcall
      exact call_arithmetic hmac hlen hd (fun e he => ih _ (.inl ⟨e, he, rfl⟩))
        fun vs hvs => ih _ (.inr ⟨mac, vs, hmac, hvs, rfl⟩)
    | _ => exact absurd trivial gap

/-! ## The classifier and the evaluator -/

/-- An expression that is classified as constant has a value, if its arithmetic is defined. -/
def ConstantHasValue (P : Program) (m : ModulePath) (extra : List Name) (e : Expr) : Prop :=
  Classifies P m extra e true → ¬ EvaluatesTo P m e (.error .arithmetic) →
    ∃ v, EvaluatesTo P m e (.ok v)

/-- `1 < 2` -/
def integersOrdered : Expr := .binary 1 .less (.literalInteger 2 1) (.literalInteger 3 2)

/-- `1.5 < 2.5` -/
def floatsOrdered : Expr := .binary 1 .less (.leaf 2 .float) (.leaf 3 .float)

end Mirage.Consts
