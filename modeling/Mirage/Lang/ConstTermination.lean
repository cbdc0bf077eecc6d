import Mathlib.Tactic.Common
import Mirage.Lang.Consts

/-!
# When constant evaluation ends

A name leads the evaluators into the initializer it stands for and a macro call into a
template, so that an expression of a few nodes can keep them busy for ever. The guard is a
depth, which is handed from a call to its template and its arguments, but starts again
below an operator, a cast or a condition and in an initializer.

`Shallow k` is the condition under which the walks end with at most `k` templates
inside each other. It follows *every* name of an expression, also in the branches that
are not taken: into initializers, into templates as far as the guard lets them be expanded
and into the defaults of the fields a struct literal leaves out. No such chain may be
endless.

Each walk makes only calls that `Shallow` covers (`evaluate_within` and its kin), so it
returns, by induction over the condition, and every call it makes has a counter of at most
`k`.
-/

namespace Mirage.Consts

open Ast Calls

variable {P : Program} {k : Nat} {bound : List Name} {m : ModulePath} {d : Nat} {e : Expr}

/-! ## Where an expression leads -/

/-- The initializers an expression stands for, unless its name is bound. -/
def initsOf (P : Program) (bound : List Name) (m : ModulePath) : Expr → List (ModulePath × Expr)
  | .ident _ x => if x ∈ bound then [] else ((P.globalInit m x).map fun init => (m, init)).toList
  | .member _ object x =>
    ((P.resolveMemberObjectImportPath m object).bind fun m' =>
      (P.constInit m' x).map fun init => (m', init)).toList
  | _ => []

/-- The template a call is expanded to. -/
def templatesOf (P : Program) (m : ModulePath) (depth : Nat) : Expr → List MacroSymbol
  | .call _ callee _ =>
    if depth < maxMacroEvalDepth then (P.macroOf m callee).toList else []
  | _ => []

/-- The defaults a struct literal takes. -/
def literalDefaults (P : Program) (m : ModulePath) : Expr → List Expr
  | .structExpr k names _ => ((P.exprType m k).map fun ty => defaultsOf P ty names).getD []
  | _ => []

/-- The least depth at which a part is visited. -/
def partDepth (depth : Nat) : Expr → Nat
  | .call .. => depth
  | _ => 0

/-- Every chain of names from the expression ends and passes through at most `k` templates
    inside each other. -/
inductive Shallow (P : Program) : Nat → List Name → ModulePath → Nat → Expr → Prop
  | intro {k : Nat} {bound : List Name} {m : ModulePath} {d : Nat} {e : Expr}
      (parts : ∀ c ∈ parts e, Shallow P k bound m (partDepth d e) c)
      (inits : ∀ i ∈ initsOf P bound m e, Shallow P k [] i.1 0 i.2)
      (nest : ∀ mac ∈ templatesOf P m d e, 0 < k)
      (templates : ∀ mac ∈ templatesOf P m d e,
        Shallow P (k - 1) mac.params m (d + 1) mac.exprTemplate)
      (defaults : ∀ c ∈ literalDefaults P m e, Shallow P k bound m d c) :
      Shallow P k bound m d e

/-! ## The calls of each walk -/

theorem mem_initsOf_ident {key : ExprKey} {x : Name} {init : Expr} (hx : x ∉ bound)
    (h : P.globalInit m x = some init) : (m, init) ∈ initsOf P bound m (.ident key x) := by
  simp [initsOf, hx, h]

theorem globalInit_of_constInit {x : Name} {init : Expr} (h : P.constInit m x = some init) :
    P.globalInit m x = some init := by
  rw [Program.constInit] at h
  rw [Program.globalInit]
  split at h
  · split_ifs at h
    exact h
  · cases h

theorem mem_initsOf_member {key : ExprKey} {object : Expr} {x : Name} {m' : ModulePath}
    {init : Expr} (hm : P.resolveMemberObjectImportPath m object = some m')
    (h : P.constInit m' x = some init) : (m', init) ∈ initsOf P bound m (.member key object x) := by
  simp [initsOf, hm, h]

theorem mem_templatesOf {key : ExprKey} {callee : Expr} {args : List Expr} {mac : MacroSymbol}
    (hd : d < maxMacroEvalDepth) (h : P.macroOf m callee = some mac) :
    mac ∈ templatesOf P m d (.call key callee args) := by
  simp [templatesOf, hd, h]

theorem evaluateArgs_within {S : EvalCall → Prop} {c : EvalCall} {es : List Expr}
    (h : ∀ e ∈ es, S { c with depth := c.depth + 1, expr := e }) : (evaluateArgs c es).Within S := by
  induction es with
  | nil => exact within_pure
  | cons e es ih =>
    refine (within_call (h e List.mem_cons_self)).bind fun r => ?_
    cases r with
    | error f => exact within_pure
    | ok v =>
      exact (ih fun e' he' => h e' (List.mem_cons_of_mem _ he')).bind fun _ => within_pure

/-- The values of the arguments are as many as the arguments. -/
theorem evaluateArgs_leaves {c : EvalCall} {es : List Expr} :
    (evaluateArgs c es).Leaves fun r => ∀ vs, r = .ok vs → vs.length = es.length := by
  induction es with
  | nil =>
    refine leaves_pure fun vs h => ?_
    cases h
    rfl
  | cons e es ih =>
    refine Leaves.bind leaves_true fun r _ => ?_
    cases r with
    | error f => exact leaves_pure fun vs h => by cases h
    | ok v =>
      refine Leaves.bind ih fun r' hr => leaves_pure fun vs h => ?_
      cases r' with
      | error f => cases h
      | ok vs' =>
        cases h
        simp [hr vs' rfl]

/-- The evaluator calls itself on parts, initializers and templates. -/
theorem evaluate_within {S : EvalCall → Prop} {c : EvalCall}
    (hparts : ∀ e' ∈ parts c.expr, ∀ d', partDepth c.depth c.expr ≤ d' →
      S { c with depth := d', expr := e' })
    (hinits : ∀ i ∈ initsOf P (c.macroArgs.map Prod.fst) c.module c.expr,
      S ⟨i.1, [], 0, c.nest, i.2⟩)
    (htemplates : ∀ mac ∈ templatesOf P c.module c.depth c.expr, ∀ vs : List Value,
      vs.length = mac.params.length →
      S ⟨c.module, mac.params.zip vs, c.depth + 1, c.nest + 1, mac.exprTemplate⟩) :
    (evaluateConstValueImpl P c).Within S := by
  obtain ⟨m, args, d, nest, e⟩ := c
  have hsub : ∀ e' ∈ parts e, partDepth d e = 0 → S ⟨m, args, 0, nest, e'⟩ :=
    fun e' he' h0 => hparts e' he' 0 (Nat.le_of_eq h0)
  cases e with
  | ident key x =>
    rw [evaluateConstValueImpl]
    dsimp only
    split
    · exact within_pure
    · rename_i hargs
      split
      · exact within_pure
      · split
        · rename_i init hinit
          refine within_call (hinits (m, init) (mem_initsOf_ident ?_ (globalInit_of_constInit hinit)))
          intro hmem
          obtain ⟨p, hp, rfl⟩ := List.mem_map.1 hmem
          have := List.lookup_eq_none_iff.1 hargs p hp
          simp at this
        · exact within_pure
  | member key object x =>
    rw [evaluateConstValueImpl]
    dsimp only
    split
    · rename_i m' hm
      split
      · rename_i init hinit
        exact within_call (hinits (m', init) (mem_initsOf_member hm hinit))
      · exact within_pure
    · exact within_pure
  | unary key op operand =>
    rw [evaluateConstValueImpl]
    dsimp only
    split_ifs
    · exact within_pure
    · exact (within_call (hsub operand (by simp [parts]) rfl)).bind fun _ => within_pure
  | binary key op lhs rhs =>
    have hl := hsub lhs (by simp [parts]) rfl
    have hr := hsub rhs (by simp [parts]) rfl
    have hside : ∀ side other, S ⟨m, args, 0, nest, side⟩ →
        (resolveSide P ⟨m, args, d, nest, .binary key op lhs rhs⟩ side other).Within S := by
      intro side other hs
      refine (within_call hs).bind fun r => ?_
      repeat' split
      all_goals exact within_pure
    rw [evaluateConstValueImpl]
    dsimp only
    split_ifs
    · exact (hside lhs rhs hl).bind fun _ => (hside rhs lhs hr).bind fun _ => within_pure
    · exact (within_call hl).bind fun _ => (within_call hr).bind fun _ => within_pure
  | ternary key a b c =>
    rw [evaluateConstValueImpl]
    refine (within_call (hsub a (by simp [parts]) rfl)).bind fun r => ?_
    split
    · split_ifs
      · exact within_call (hsub b (by simp [parts]) rfl)
      · exact within_call (hsub c (by simp [parts]) rfl)
    · exact within_pure
  | whenExpr key a b c =>
    rw [evaluateConstValueImpl]
    refine (within_call (hsub a (by simp [parts]) rfl)).bind fun r => ?_
    split
    · split_ifs
      · exact within_call (hsub b (by simp [parts]) rfl)
      · exact within_call (hsub c (by simp [parts]) rfl)
    · exact within_pure
  | cast key value => exact within_call (hsub value (by simp [parts]) rfl)
  | call key callee args' =>
    rw [evaluateConstValueImpl]
    dsimp only
    split
    · rename_i mac hmac
      split_ifs with hcond
      · refine (evaluateArgs_within fun e' he' => ?_).bind_leaves evaluateArgs_leaves fun r hr => ?_
        · exact hparts e' (by simp [parts, he']) (d + 1) (Nat.le_succ d)
        · split
          · rename_i vs
            exact within_call (htemplates mac (mem_templatesOf hcond.2 hmac) vs
              ((hr vs rfl).trans hcond.1))
          · exact within_pure
      · exact within_pure
    · exact within_pure
  | leaf key kind => cases kind <;> exact within_pure
  | _ => exact within_pure

theorem evalIntegerArgs_within {S : IntCall → Prop} {c : IntCall} {es : List Expr}
    (h : ∀ e ∈ es, S { c with iotaValue := 0, depth := c.depth + 1, expr := e }) :
    (evalIntegerArgs c es).Within S := by
  induction es with
  | nil => exact within_pure
  | cons e es ih =>
    refine (within_call (h e List.mem_cons_self)).bind fun r => ?_
    cases r with
    | error f => exact within_pure
    | ok v =>
      exact (ih fun e' he' => h e' (List.mem_cons_of_mem _ he')).bind fun _ => within_pure

theorem evalIntegerArgs_leaves {c : IntCall} {es : List Expr} :
    (evalIntegerArgs c es).Leaves fun r => ∀ vs, r = .ok vs → vs.length = es.length := by
  induction es with
  | nil =>
    refine leaves_pure fun vs h => ?_
    cases h
    rfl
  | cons e es ih =>
    refine Leaves.bind leaves_true fun r _ => ?_
    cases r with
    | error f => exact leaves_pure fun vs h => by cases h
    | ok v =>
      refine Leaves.bind ih fun r' hr => leaves_pure fun vs h => ?_
      cases r' with
      | error f => cases h
      | ok vs' =>
        cases h
        simp [hr vs' rfl]

theorem evalInteger_within {S : IntCall → Prop} {c : IntCall}
    (hparts : ∀ e' ∈ parts c.expr, ∀ d', partDepth c.depth c.expr ≤ d' →
      S { c with iotaValue := 0, depth := d', expr := e' })
    (hinits : ∀ i ∈ initsOf P (c.macroArgs.map Prod.fst) c.module c.expr,
      S ⟨i.1, [], 0, 0, c.nest, i.2⟩)
    (htemplates : ∀ mac ∈ templatesOf P c.module c.depth c.expr, ∀ vs : List (BitVec 64),
      vs.length = mac.params.length →
      S ⟨c.module, mac.params.zip vs, 0, c.depth + 1, c.nest + 1, mac.exprTemplate⟩) :
    (evalIntegerConstExpr P c).Within S := by
  obtain ⟨m, args, iota, d, nest, e⟩ := c
  have hsub : ∀ e' ∈ parts e, partDepth d e = 0 → S ⟨m, args, 0, 0, nest, e'⟩ :=
    fun e' he' h0 => hparts e' he' 0 (Nat.le_of_eq h0)
  cases e with
  | ident key x =>
    rw [evalIntegerConstExpr]
    dsimp only
    split
    · exact within_pure
    · rename_i hargs
      split
      · exact within_pure
      · split
        · rename_i init hinit
          refine within_call (hinits (m, init) (mem_initsOf_ident ?_ (globalInit_of_constInit hinit)))
          intro hmem
          obtain ⟨p, hp, rfl⟩ := List.mem_map.1 hmem
          have := List.lookup_eq_none_iff.1 hargs p hp
          simp at this
        · exact within_pure
  | unary key op operand =>
    exact (within_call (hsub operand (by simp [parts]) rfl)).bind fun _ => within_pure
  | binary key op lhs rhs =>
    exact (within_call (hsub lhs (by simp [parts]) rfl)).bind fun _ =>
      (within_call (hsub rhs (by simp [parts]) rfl)).bind fun _ => within_pure
  | ternary key a b c =>
    rw [evalIntegerConstExpr]
    refine (within_call (hsub a (by simp [parts]) rfl)).bind fun r => ?_
    split
    · split_ifs
      · exact within_call (hsub b (by simp [parts]) rfl)
      · exact within_call (hsub c (by simp [parts]) rfl)
    · exact within_pure
  | cast key value => exact within_call (hsub value (by simp [parts]) rfl)
  | call key callee args' =>
    rw [evalIntegerConstExpr]
    dsimp only
    split
    · rename_i mac hmac
      split_ifs with hcond
      · refine (evalIntegerArgs_within fun e' he' => ?_).bind_leaves evalIntegerArgs_leaves
          fun r hr => ?_
        · exact hparts e' (by simp [parts, he']) (d + 1) (Nat.le_succ d)
        · split
          · rename_i vs
            exact within_call (htemplates mac (mem_templatesOf hcond.2 hmac) vs
              ((hr vs rfl).trans hcond.1))
          · exact within_pure
      · exact within_pure
    · exact within_pure
  | leaf key kind => cases kind <;> exact within_pure
  | _ => exact within_pure

theorem eachConstant_within {S : ConstCall → Prop} {c : ConstCall} {es : List Expr}
    (h : ∀ e ∈ es, S { c with expr := e }) : (eachConstant c es).Within S := by
  induction es with
  | nil => exact within_pure
  | cons e es ih =>
    refine (within_call (h e List.mem_cons_self)).bind fun r => ?_
    split_ifs
    · exact ih fun e' he' => h e' (List.mem_cons_of_mem _ he')
    · exact within_pure

theorem allConstant_within {S : ConstCall → Prop} {c : ConstCall} {es : List Expr}
    (h : ∀ e ∈ es, S { c with expr := e }) : (allConstant c es).Within S := by
  induction es with
  | nil => exact within_pure
  | cons e es ih =>
    have ih := ih fun e' he' => h e' (List.mem_cons_of_mem _ he')
    rw [allConstant.eq_def]
    split
    · exact within_pure
    · rename_i heq
      exact (List.cons.inj heq).2 ▸ ih
    · rename_i heq
      obtain ⟨rfl, rfl⟩ := List.cons.inj heq
      refine (within_call (h e List.mem_cons_self)).bind fun r => ?_
      split_ifs
      · exact ih
      · exact within_pure

theorem fieldsConstant_within {S : ConstCall → Prop} {c : ConstCall} {ty : Ty}
    {fields : List (Name × Expr)} (h : ∀ f ∈ fields, S { c with expr := f.2 }) :
    (fieldsConstant P c ty fields).Within S := by
  induction fields with
  | nil => exact within_pure
  | cons f fields ih =>
    have ih := ih fun f' hf' => h f' (List.mem_cons_of_mem _ hf')
    rw [fieldsConstant.eq_def]
    split
    · exact within_pure
    · rename_i heq
      exact (List.cons.inj heq).2 ▸ ih
    · rename_i heq
      obtain ⟨rfl, rfl⟩ := List.cons.inj heq
      refine (within_call (h _ List.mem_cons_self)).bind fun r => ?_
      split_ifs
      · dsimp only
        split
        · split_ifs
          · exact within_pure
          · exact ih
        · exact ih
      · exact within_pure

/-- The classifier hands its depth on to every part. -/
theorem isConstant_within {S : ConstCall → Prop} {c : ConstCall}
    (hparts : ∀ e' ∈ parts c.expr, S { c with expr := e' })
    (htemplates : ∀ mac ∈ templatesOf P c.module c.depth c.expr,
      S ⟨c.module, mac.params ++ c.treatedAsConst, c.depth + 1, c.nest + 1, mac.exprTemplate⟩)
    (hdefaults : ∀ e' ∈ literalDefaults P c.module c.expr, S { c with expr := e' }) :
    (isConstantExprImpl P c).Within S := by
  obtain ⟨m, treated, d, nest, e⟩ := c
  by_cases hcoerced : P.isCoerced m e.key = true
  · rw [isConstantExprImpl, if_pos hcoerced]
    exact within_pure
  rw [isConstantExprImpl, if_neg hcoerced]
  cases e with
  | ident key x => dsimp only; split_ifs <;> exact within_pure
  | member key object x => dsimp only; split <;> exact within_pure
  | unary key op operand =>
    dsimp only
    split_ifs
    · exact within_pure
    · exact within_call (hparts operand (by simp [parts]))
  | binary key op lhs rhs =>
    refine (within_call (hparts lhs (by simp [parts]))).bind fun r => ?_
    split_ifs
    · exact within_call (hparts rhs (by simp [parts]))
    · exact within_pure
  | ternary key a b c =>
    refine (within_call (hparts a (by simp [parts]))).bind fun r => ?_
    split_ifs
    · refine (within_call (hparts b (by simp [parts]))).bind fun r => ?_
      split_ifs
      · exact within_call (hparts c (by simp [parts]))
      · exact within_pure
    · exact within_pure
  | whenExpr key a b c =>
    refine (within_call (hparts a (by simp [parts]))).bind fun r => ?_
    split_ifs
    · refine (within_call (hparts b (by simp [parts]))).bind fun r => ?_
      split_ifs
      · exact within_call (hparts c (by simp [parts]))
      · exact within_pure
    · exact within_pure
  | cast key value => exact within_call (hparts value (by simp [parts]))
  | call key callee args =>
    dsimp only
    split
    · rename_i mac hmac
      refine (eachConstant_within fun e' he' => hparts e' (by simp [parts, he'])).bind fun r => ?_
      split_ifs with h1 h2
      · exact within_call (htemplates mac (mem_templatesOf h2 hmac))
      · exact within_pure
      · exact within_pure
    · exact within_pure
  | arrayExpr key values => exact allConstant_within fun e' he' => hparts e' he'
  | structExpr key names values =>
    dsimp only
    split
    · exact within_pure
    · exact within_pure
    · rename_i ty hne hty
      refine (fieldsConstant_within fun f hf => hparts f.2 (List.of_mem_zip hf).2).bind fun r => ?_
      split_ifs
      · refine eachConstant_within fun e' he' => hdefaults e' ?_
        rw [literalDefaults, hty]
        exact he'
      · exact within_pure
  | leaf key kind => cases kind <;> exact within_pure
  | _ => exact within_pure

theorem declareAll_within {S : DeclCall → Prop} {es : List Expr} (h : ∀ e ∈ es, S ⟨m, e⟩) :
    (declareAll m es).Within S := by
  induction es with
  | nil => exact within_pure
  | cons e es ih =>
    refine (within_call (h e List.mem_cons_self)).bind fun _ => ?_
    exact (ih fun e' he' => h e' (List.mem_cons_of_mem _ he')).bind fun _ => within_pure

/-- The walk over a condition follows the names of its own module. -/
theorem ensureDeclared_within {S : DeclCall → Prop} {c : DeclCall}
    (hparts : ∀ e' ∈ parts c.expr, S ⟨c.module, e'⟩)
    (hinits : ∀ i ∈ initsOf P [] c.module c.expr, S ⟨i.1, i.2⟩) :
    (ensureConditionModulesDeclared P c).Within S := by
  obtain ⟨m, e⟩ := c
  cases e with
  | member key object x =>
    exact (within_call (hparts object (by simp [parts]))).bind fun _ => within_pure
  | ident key x =>
    rw [ensureConditionModulesDeclared]
    dsimp only
    split
    · rename_i init hinit
      exact within_call (hinits (m, init) (mem_initsOf_ident List.not_mem_nil hinit))
    · exact within_pure
  | _ => exact declareAll_within hparts

/-! ## The walks end -/

theorem initsOf_subset {names : List Name} (h : ∀ x ∈ bound, x ∈ names) :
    ∀ i ∈ initsOf P names m e, i ∈ initsOf P bound m e := by
  intro i hi
  cases e with
  | ident key x =>
    rw [initsOf] at hi ⊢
    split_ifs at hi with hx
    · simp at hi
    · rwa [if_neg fun hb => hx (h x hb)]
  | member key object x => exact hi
  | _ => simp [initsOf] at hi

theorem templatesOf_subset {depth : Nat} (h : d ≤ depth) :
    ∀ mac ∈ templatesOf P m depth e, mac ∈ templatesOf P m d e := by
  intro mac hmac
  cases e with
  | call key callee args =>
    rw [templatesOf] at hmac ⊢
    split_ifs at hmac with hd
    · rwa [if_pos (Nat.lt_of_le_of_lt h hd)]
    · simp at hmac
  | _ => simp [templatesOf] at hmac

theorem partDepth_mono {depth : Nat} (h : d ≤ depth) : partDepth d e ≤ partDepth depth e := by
  cases e with
  | call key callee args => exact h
  | _ => exact Nat.le_refl _

theorem partDepth_le (d : Nat) (e : Expr) : partDepth d e ≤ d := by
  cases e with
  | call key callee args => exact Nat.le_refl _
  | _ => exact Nat.zero_le _

theorem fst_zip {β : Type} {params : List Name} {vs : List β} (h : vs.length = params.length) :
    (params.zip vs).map Prod.fst = params := by
  rw [List.map_fst_zip (Nat.le_of_eq h.symm)]

theorem evaluate_returns (h : Shallow P k bound m d e) :
    ∀ {args : List (Name × Value)} {depth nest : Nat}, (∀ x ∈ bound, x ∈ args.map Prod.fst) →
      d ≤ depth → ∃ r, Returns (evaluateConstValueImpl P) ⟨m, args, depth, nest, e⟩ r := by
  induction h with
  | intro hparts hinits hnest htemplates hdefaults ihparts ihinits ihtemplates ihdefaults =>
    intro args depth nest hargs hd
    obtain ⟨r, hr⟩ := exists_evals (fun a h => h) (evaluate_within (P := P)
      (S := fun c => ∃ r, Returns (evaluateConstValueImpl P) c r)
      (c := ⟨_, args, depth, nest, _⟩)
      (fun e' he' d' hd' => ihparts e' he' hargs (Nat.le_trans (partDepth_mono hd) hd'))
      (fun i hi => ihinits i (initsOf_subset hargs i hi) (by simp) (Nat.zero_le _))
      (fun mac hmac vs hvs => ihtemplates mac (templatesOf_subset hd mac hmac)
        (by simp [fst_zip hvs]) (Nat.succ_le_succ hd)))
    exact ⟨r, returns_iff.2 hr⟩

theorem evalInteger_returns (h : Shallow P k bound m d e) :
    ∀ {args : List (Name × BitVec 64)} {iota : BitVec 64} {depth nest : Nat},
      (∀ x ∈ bound, x ∈ args.map Prod.fst) → d ≤ depth →
      ∃ r, Returns (evalIntegerConstExpr P) ⟨m, args, iota, depth, nest, e⟩ r := by
  induction h with
  | intro hparts hinits hnest htemplates hdefaults ihparts ihinits ihtemplates ihdefaults =>
    intro args iota depth nest hargs hd
    obtain ⟨r, hr⟩ := exists_evals (fun a h => h) (evalInteger_within (P := P)
      (S := fun c => ∃ r, Returns (evalIntegerConstExpr P) c r)
      (c := ⟨_, args, iota, depth, nest, _⟩)
      (fun e' he' d' hd' => ihparts e' he' hargs (Nat.le_trans (partDepth_mono hd) hd'))
      (fun i hi => ihinits i (initsOf_subset hargs i hi) (by simp) (Nat.zero_le _))
      (fun mac hmac vs hvs => ihtemplates mac (templatesOf_subset hd mac hmac)
        (by simp [fst_zip hvs]) (Nat.succ_le_succ hd)))
    exact ⟨r, returns_iff.2 hr⟩

theorem isConstant_returns (h : Shallow P k bound m d e) :
    ∀ {treated : List Name} {depth nest : Nat}, d ≤ depth →
      ∃ r, Returns (isConstantExprImpl P) ⟨m, treated, depth, nest, e⟩ r := by
  induction h with
  | intro hparts hinits hnest htemplates hdefaults ihparts ihinits ihtemplates ihdefaults =>
    intro treated depth nest hd
    obtain ⟨r, hr⟩ := exists_evals (fun a h => h) (isConstant_within (P := P)
      (S := fun c => ∃ r, Returns (isConstantExprImpl P) c r)
      (c := ⟨_, treated, depth, nest, _⟩)
      (fun e' he' => ihparts e' he' (Nat.le_trans (partDepth_le _ _) hd))
      (fun mac hmac => ihtemplates mac (templatesOf_subset hd mac hmac) (Nat.succ_le_succ hd))
      (fun e' he' => ihdefaults e' he' hd))
    exact ⟨r, returns_iff.2 hr⟩

/-- The names of a condition are followed as if nothing was bound. -/
theorem ensureDeclared_returns (h : Shallow P k bound m d e) : bound = [] →
    ∃ r, Returns (ensureConditionModulesDeclared P) ⟨m, e⟩ r := by
  induction h with
  | intro hparts hinits hnest htemplates hdefaults ihparts ihinits ihtemplates ihdefaults =>
    rintro rfl
    obtain ⟨r, hr⟩ := exists_evals (fun a h => h) (ensureDeclared_within (P := P)
      (S := fun c => ∃ r, Returns (ensureConditionModulesDeclared P) c r) (c := ⟨_, _⟩)
      (fun e' he' => ihparts e' he' rfl) (fun i hi => ihinits i hi rfl))
    exact ⟨r, returns_iff.2 hr⟩

/-! ## How deep templates nest -/

/-- A call from which at most the cap of templates are nested. -/
def Fine (P : Program) (bound : List Name) (m : ModulePath) (depth nest : Nat) (e : Expr) : Prop :=
  ∃ k d, Shallow P k bound m d e ∧ d ≤ depth ∧ nest + k ≤ maxMacroEvalDepth

namespace Fine

variable {depth nest : Nat}

theorem part (h : Fine P bound m depth nest e) {e' : Expr} (he' : e' ∈ parts e) {d' : Nat}
    (hd' : partDepth depth e ≤ d') : Fine P bound m d' nest e' := by
  obtain ⟨k, d, ⟨hparts, _, _, _, _⟩, hd, hk⟩ := h
  exact ⟨k, _, hparts e' he', Nat.le_trans (partDepth_mono hd) hd', hk⟩

theorem init (h : Fine P bound m depth nest e) {names : List Name} (hb : ∀ x ∈ bound, x ∈ names)
    {i : ModulePath × Expr} (hi : i ∈ initsOf P names m e) : Fine P [] i.1 0 nest i.2 := by
  obtain ⟨k, d, ⟨_, hinits, _, _, _⟩, hd, hk⟩ := h
  exact ⟨k, 0, hinits i (initsOf_subset hb i hi), Nat.le_refl _, hk⟩

theorem template (h : Fine P bound m depth nest e) {mac : MacroSymbol}
    (hmac : mac ∈ templatesOf P m depth e) :
    Fine P mac.params m (depth + 1) (nest + 1) mac.exprTemplate := by
  obtain ⟨k, d, ⟨_, _, hpos, htemplates, _⟩, hd, hk⟩ := h
  have hmem := templatesOf_subset hd mac hmac
  have := hpos mac hmem
  exact ⟨k - 1, d + 1, htemplates mac hmem, Nat.succ_le_succ hd, by omega⟩

theorem default (h : Fine P bound m depth nest e) {e' : Expr} (he' : e' ∈ literalDefaults P m e) :
    Fine P bound m depth nest e' := by
  obtain ⟨k, d, ⟨_, _, _, _, hdefaults⟩, hd, hk⟩ := h
  exact ⟨k, d, hdefaults e' he', hd, hk⟩

theorem nest_le (h : Fine P bound m depth nest e) : nest ≤ maxMacroEvalDepth := by
  obtain ⟨k, d, -, -, hk⟩ := h
  omega

end Fine

/-- The function returns, and every call it makes is nested in at most the cap of
    templates. -/
def EndsWithinCap {α β : Type} (step : α → Calls α β β) (nest : α → Nat) (a : α) : Prop :=
  (∃ r, Returns step a r) ∧ ∀ c, Calls.Reaches step a c → nest c ≤ maxMacroEvalDepth

theorem evaluate_ends (h : Shallow P maxMacroEvalDepth [] m 0 e) :
    EndsWithinCap (evaluateConstValueImpl P) EvalCall.nest ⟨m, [], 0, 0, e⟩ := by
  refine ⟨evaluate_returns h (by simp) (Nat.le_refl _), fun c hc => ?_⟩
  have hfine := hc.keeps (I := fun c : EvalCall => ∃ bound, (∀ x ∈ bound,
      x ∈ c.macroArgs.map Prod.fst) ∧ Fine P bound c.module c.depth c.nest c.expr)
    (fun a ⟨bound, hb, hf⟩ => evaluate_within
      (fun e' he' d' hd' => ⟨bound, hb, hf.part he' hd'⟩)
      (fun i hi => ⟨[], by simp, hf.init hb hi⟩)
      (fun mac hmac vs hvs => ⟨mac.params, by simp [fst_zip hvs], hf.template hmac⟩))
    ⟨[], by simp, _, _, h, Nat.le_refl _, Nat.le_of_eq (Nat.zero_add _)⟩
  obtain ⟨_, _, hf⟩ := hfine
  exact hf.nest_le

theorem evalInteger_ends (h : Shallow P maxMacroEvalDepth [] m 0 e) (iota : BitVec 64) :
    EndsWithinCap (evalIntegerConstExpr P) IntCall.nest ⟨m, [], iota, 0, 0, e⟩ := by
  refine ⟨evalInteger_returns h (by simp) (Nat.le_refl _), fun c hc => ?_⟩
  have hfine := hc.keeps (I := fun c : IntCall => ∃ bound, (∀ x ∈ bound,
      x ∈ c.macroArgs.map Prod.fst) ∧ Fine P bound c.module c.depth c.nest c.expr)
    (fun a ⟨bound, hb, hf⟩ => evalInteger_within
      (fun e' he' d' hd' => ⟨bound, hb, hf.part he' hd'⟩)
      (fun i hi => ⟨[], by simp, hf.init hb hi⟩)
      (fun mac hmac vs hvs => ⟨mac.params, by simp [fst_zip hvs], hf.template hmac⟩))
    ⟨[], by simp, _, _, h, Nat.le_refl _, Nat.le_of_eq (Nat.zero_add _)⟩
  obtain ⟨_, _, hf⟩ := hfine
  exact hf.nest_le

theorem isConstant_ends (h : Shallow P maxMacroEvalDepth [] m 0 e) (treated : List Name) :
    EndsWithinCap (isConstantExprImpl P) ConstCall.nest ⟨m, treated, 0, 0, e⟩ := by
  refine ⟨isConstant_returns h (Nat.le_refl _), fun c hc => ?_⟩
  have hfine := hc.keeps (I := fun c : ConstCall => ∃ bound,
      Fine P bound c.module c.depth c.nest c.expr)
    (fun a ⟨bound, hf⟩ => isConstant_within
      (fun e' he' => ⟨bound, hf.part he' (partDepth_le _ _)⟩)
      (fun mac hmac => ⟨mac.params, hf.template hmac⟩)
      (fun e' he' => ⟨bound, hf.default he'⟩))
    ⟨[], _, _, h, Nat.le_refl _, Nat.le_of_eq (Nat.zero_add _)⟩
  obtain ⟨_, hf⟩ := hfine
  exact hf.nest_le

/-- The four walks return, with at most the cap of templates inside each other. -/
structure ConstEvalEnds (P : Program) (m : ModulePath) (e : Expr) : Prop where
  isConstantExpr : ∀ treated,
    EndsWithinCap (isConstantExprImpl P) ConstCall.nest ⟨m, treated, 0, 0, e⟩
  evaluateConstValue :
    EndsWithinCap (evaluateConstValueImpl P) EvalCall.nest ⟨m, [], 0, 0, e⟩
  evalIntegerConstExpr : ∀ iota,
    EndsWithinCap (evalIntegerConstExpr P) IntCall.nest ⟨m, [], iota, 0, 0, e⟩
  ensureConditionModulesDeclared : ∃ r, Returns (ensureConditionModulesDeclared P) ⟨m, e⟩ r

/-- A program with one module `m` with the given symbols. -/
def oneModule (symbols : List (Name × Symbol)) : Program where
  modules := [("m", ⟨symbols, [], [], [], []⟩)]
  enums := []
  bitsets := []
  structs := []
  rttiEnabled := false
  genericEnv := []
  sizeOf := fun _ _ => 0
  alignOf := fun _ _ => 0

/-- `f()` -/
def callF : Expr := .call 2 (.ident 3 "f") []

/-- `macro f() -> f() + 1` -/
def selfSum : Program :=
  oneModule [("f", .macroSymbol ⟨[], .binary 1 .add callF (.literalInteger 4 1), true⟩)]

/-- `macro f() -> f()`, which the guard stops. -/
def selfCall : Program := oneModule [("f", .macroSymbol ⟨[], callF, true⟩)]

theorem runs_selfSum {n nest : Nat} {r : Outcome} :
    runs (evaluateConstValueImpl selfSum) n ⟨"m", [], 0, nest, callF⟩ ≠ some r := by
  induction n using Nat.strongRecOn generalizing nest r with
  | _ n ih =>
    intro h
    match n with
    | 0 => cases h
    | n + 1 =>
      obtain ⟨b, hb, -⟩ := Option.bind_eq_some_iff.1 h
      match n with
      | 0 => cases hb
      | n + 1 =>
        -- below the sum the depth is zero again
        obtain ⟨l, hl, -⟩ := Option.bind_eq_some_iff.1 hb
        exact ih n (by omega) hl

/-- An expression without parts and names. -/
theorem shallow_leaf (hparts : parts e = []) (hinits : initsOf P bound m e = [])
    (htemplates : templatesOf P m d e = []) (hdefaults : literalDefaults P m e = []) :
    Shallow P k bound m d e := by
  refine ⟨?_, ?_, ?_, ?_, ?_⟩
  · simp [hparts]
  · simp [hinits]
  · simp [htemplates]
  · simp [htemplates]
  · simp [hdefaults]

/-- The guard stops a macro that is only a call of itself. -/
theorem shallow_selfCall (n : Nat) (hn : n ≤ maxMacroEvalDepth) :
    Shallow selfCall n [] "m" (maxMacroEvalDepth - n) callF := by
  have hcallee : ∀ n d, Shallow selfCall n [] "m" d (.ident 3 "f") := fun n d =>
    shallow_leaf rfl rfl rfl rfl
  induction n with
  | zero =>
    have hnone : templatesOf selfCall "m" maxMacroEvalDepth callF = [] := rfl
    refine ⟨?_, by simp [initsOf, callF], by simp [hnone], by simp [hnone],
      by simp [literalDefaults, callF]⟩
    simp only [parts, callF, List.mem_singleton, forall_eq]
    exact hcallee _ _
  | succ n ih =>
    refine ⟨?_, by simp [initsOf, callF], fun _ _ => Nat.succ_pos n, fun mac hmac => ?_,
      by simp [literalDefaults, callF]⟩
    · simp only [parts, callF, List.mem_singleton, forall_eq]
      exact hcallee _ _
    · have hlt : maxMacroEvalDepth - (n + 1) < maxMacroEvalDepth := by omega
      rw [callF, templatesOf, if_pos hlt] at hmac
      have hmac' : selfCall.macroOf "m" (.ident 3 "f") = some ⟨[], callF, true⟩ := rfl
      obtain rfl : mac = ⟨[], callF, true⟩ := by simpa [hmac'] using hmac
      have : maxMacroEvalDepth - (n + 1) + 1 = maxMacroEvalDepth - n := by omega
      rw [this]
      exact ih (by omega)

end Mirage.Consts
