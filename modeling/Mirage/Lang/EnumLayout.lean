import Mirage.Lang.ConstTermination

/-!
# The values of an enumeration

`layoutEnum` gives the fields of an enumeration their values. A field without an
initializer takes its index, or continues the last initializer if that one uses `iota`;
what `iota` stands for is the index of the field (`IotaLaw`).

The evaluator of constants takes the index as an argument, but the calls it makes for the
operands of an operator, a cast or a macro do not hand it on: below the top of an
initializer `iota` is zero. `evalAtIota` is the evaluator that does hand it on.

* `evalIntegerConstExpr_eq`: away from a bare `iota`, the evaluator computes the value at
  the index zero, whatever the index is;
* `layoutEnum_follows_iff`: the values follow the law exactly when no initializer needs
  the index anywhere but at its top.
-/

namespace Mirage.Consts

open Ast Calls

/-! ## Enumerations -/

/-- A field as it is declared. -/
structure EnumField where
  name : Name
  init : Option Expr

structure EnumDecl where
  underlyingType : Option Ty
  fields : List EnumField

structure EnumFieldInfo where
  name : Name
  value : BitVec 64
  deriving DecidableEq, Repr

structure EnumInfo where
  modulePath : ModulePath
  underlyingType : Ty
  fields : List EnumFieldInfo
  deriving DecidableEq, Repr

inductive EnumReport
  | notConstant (field : Name)
  | duplicateName (field : Name)
  deriving DecidableEq, Repr

def EnumReport.text : EnumReport → String
  | .notConstant x => "enum field '" ++ x ++ "' is not a compile-time constant"
  | .duplicateName x => "duplicate enum field name '" ++ x ++ "'"

/-- The expression uses `iota`, as far as `layoutEnum` looks. -/
def containsIota : Expr → Bool
  | .leaf _ .iota => true
  | .unary _ _ operand => containsIota operand
  | .binary _ _ lhs rhs => containsIota lhs || containsIota rhs
  | .ternary _ condition thenExpr elseExpr =>
    containsIota condition || containsIota thenExpr || containsIota elseExpr
  | _ => false

/-- The value of an initializer for the field with an index. -/
def evalFieldInit (m : ModulePath) (e : Expr) (iotaCounter : BitVec 64) :
    Calls IntCall IntOutcome IntOutcome :=
  call ⟨m, [], iotaCounter, 0, 0, e⟩

/-- The value of a field, by its initializer or the one it continues. -/
def fieldValue (m : ModulePath) (iotaCounter : BitVec 64) (iotaTemplate : Option Expr)
    (field : EnumField) : Calls IntCall IntOutcome (BitVec 64 × List EnumReport) :=
  match field.init with
  | some e => do
    match ← evalFieldInit m e iotaCounter with
    | .ok v => pure (v, [])
    | .error _ => pure (iotaCounter, [.notConstant field.name])
  | none =>
    match iotaTemplate with
    | some e => do
      match ← evalFieldInit m e iotaCounter with
      | .ok v => pure (v, [])
      | .error _ => pure (iotaCounter, [])
    | none => pure (iotaCounter, [])

/-- The initializer the next fields continue. -/
def nextTemplate (iotaTemplate : Option Expr) (field : EnumField) : Option Expr :=
  match field.init with
  | some e => if containsIota e then some e else none
  | none => iotaTemplate

/-- A field is reported once for each field of its name before it. -/
def duplicateReports (info : List EnumFieldInfo) (field : EnumField) : List EnumReport :=
  (info.filter (·.name = field.name)).map fun _ => .duplicateName field.name

def layoutFields (m : ModulePath) (info : List EnumFieldInfo) (iotaCounter : BitVec 64)
    (iotaTemplate : Option Expr) :
    List EnumField → Calls IntCall IntOutcome (List EnumFieldInfo × List EnumReport)
  | [] => pure (info, [])
  | field :: fields => do
    let (v, reports) ← fieldValue m iotaCounter iotaTemplate field
    let (infos, more) ← layoutFields m (info ++ [⟨field.name, v⟩]) (iotaCounter + 1)
      (nextTemplate iotaTemplate field) fields
    pure (infos, reports ++ duplicateReports info field ++ more)

def layoutEnum (m : ModulePath) (decl : EnumDecl) :
    Calls IntCall IntOutcome (EnumInfo × List EnumReport) := do
  let (fields, reports) ← layoutFields m [] 0 none decl.fields
  pure (⟨m, decl.underlyingType.getD (.int 32 true), fields⟩, reports)

/-! ## The law -/

/-- The expression mentions `iota` in a subexpression the evaluator goes into. -/
inductive MentionsIota : Expr → Prop
  | iota {k : ExprKey} : MentionsIota (.leaf k .iota)
  | unary {k : ExprKey} {op : UnaryOp} {e : Expr} : MentionsIota e → MentionsIota (.unary k op e)
  | lhs {k : ExprKey} {op : BinaryOp} {a b : Expr} : MentionsIota a → MentionsIota (.binary k op a b)
  | rhs {k : ExprKey} {op : BinaryOp} {a b : Expr} : MentionsIota b → MentionsIota (.binary k op a b)
  | condition {k : ExprKey} {a b c : Expr} : MentionsIota a → MentionsIota (.ternary k a b c)
  | thenExpr {k : ExprKey} {a b c : Expr} : MentionsIota b → MentionsIota (.ternary k a b c)
  | elseExpr {k : ExprKey} {a b c : Expr} : MentionsIota c → MentionsIota (.ternary k a b c)
  | cast {k : ExprKey} {e : Expr} : MentionsIota e → MentionsIota (.cast k e)
  | arg {k : ExprKey} {f e : Expr} {args : List Expr} :
    e ∈ args → MentionsIota e → MentionsIota (.call k f args)

/-- The evaluator that hands the counter on. The initializer of a global is closed, and
    has none. -/
def evalAtIota (P : Program) (c : IntCall) : Calls IntCall IntOutcome IntOutcome :=
  match c.expr with
  | .ident .. => evalIntegerConstExpr P c
  | _ => (evalIntegerConstExpr P c).mapCalls fun d => { d with iotaValue := c.iotaValue }

/-- The value of an initializer with `iota` standing for an index. -/
def ValueAt (P : Program) (m : ModulePath) (e : Expr) (i : Nat) (v : BitVec 64) : Prop :=
  Returns (evalAtIota P) ⟨m, [], BitVec.ofNat 64 i, 0, 0, e⟩ (.ok v)

/-- The last initializer among some fields. -/
def recentInit (fields : List EnumField) : Option Expr := fields.reverse.findSome? (·.init)

/-- The value of a field: that of its initializer at the index, or of the last initializer
    before it if that one mentions `iota`, or the index. -/
def IotaLaw (P : Program) (m : ModulePath) (fields : List EnumField) (i : Nat) (v : BitVec 64) :
    Prop :=
  match fields[i]?.bind (·.init), recentInit (fields.take i) with
  | some e, _ => ValueAt P m e i v
  | none, some e =>
    (MentionsIota e → ValueAt P m e i v) ∧ (¬ MentionsIota e → v = BitVec.ofNat 64 i)
  | none, none => v = BitVec.ofNat 64 i

/-- The layout ends, finds every initializer constant and gives the values of the law. -/
def Follows (P : Program) (m : ModulePath) (decl : EnumDecl) : Prop :=
  ∃ info reports, Evals (evalIntegerConstExpr P) (layoutEnum m decl) (info, reports) ∧
    (∀ x, EnumReport.notConstant x ∉ reports) ∧
    ∀ i < decl.fields.length, ∃ f, info.fields[i]? = some f ∧ IotaLaw P m decl.fields i f.value

/-- The initializer is `iota` itself, or worth the same with the index and with zero. -/
def Steady (P : Program) (m : ModulePath) (e : Expr) (i : Nat) : Prop :=
  (∃ k, e = .leaf k .iota) ∨ ∃ v, ValueAt P m e 0 v ∧ ValueAt P m e i v

/-- A field does not need the index below the top of its initializer, and an initializer
    that hides `iota` in a cast or a call continues as the index itself. -/
def AtTop (P : Program) (m : ModulePath) (fields : List EnumField) (i : Nat) : Prop :=
  match fields[i]?.bind (·.init), recentInit (fields.take i) with
  | some e, _ => Steady P m e i
  | none, some e =>
    if containsIota e then Steady P m e i
    else MentionsIota e → ValueAt P m e i (BitVec.ofNat 64 i)
  | none, none => True

/-! ## The evaluator drops the counter -/

theorem MentionsIota.of_containsIota {e : Expr} (h : containsIota e = true) : MentionsIota e := by
  induction e using containsIota.induct with
  | case1 k => exact .iota
  | case2 k op e ih => exact .unary (ih h)
  | case3 k op a b iha ihb =>
    simp only [containsIota, Bool.or_eq_true] at h
    exact h.elim (fun h => .lhs (iha h)) fun h => .rhs (ihb h)
  | case4 k a b c iha ihb ihc =>
    simp only [containsIota, Bool.or_eq_true] at h
    exact h.elim (fun h => h.elim (fun h => .condition (iha h)) fun h => .thenExpr (ihb h))
      fun h => .elseExpr (ihc h)
  | case5 e => simp_all [containsIota]

variable {P : Program} {m : ModulePath}

/-- Every call the evaluator makes is with the counter at zero. -/
theorem evalIntegerConstExpr_within (P : Program) (c : IntCall) :
    (evalIntegerConstExpr P c).Within fun d => d.iotaValue = 0 :=
  evalInteger_within (fun _ _ _ _ => rfl) (fun _ _ => rfl) fun _ _ _ _ => rfl

/-- With the counter at zero, handing it on changes nothing. -/
theorem evalAtIota_zero (c : IntCall) (h : c.iotaValue = 0) :
    evalAtIota P c = evalIntegerConstExpr P c := by
  unfold evalAtIota
  split
  · rfl
  · refine mapCalls_of_within (S := fun d => d.iotaValue = 0) (fun d hd => ?_)
      (evalIntegerConstExpr_within P c)
    rw [h, ← hd]

/-- Only a bare `iota` looks at the counter. -/
theorem evalIntegerConstExpr_iota (c : IntCall) (h : ∀ k, c.expr ≠ .leaf k .iota) (n : BitVec 64) :
    evalIntegerConstExpr P { c with iotaValue := n } = evalIntegerConstExpr P c := by
  obtain ⟨m, args, i, d, nest, e⟩ := c
  have hargs : ∀ es, evalIntegerArgs ⟨m, args, n, d, nest, e⟩ es
      = evalIntegerArgs ⟨m, args, i, d, nest, e⟩ es := by
    intro es
    induction es with
    | nil => rfl
    | cons e' es ih => simp only [evalIntegerArgs, ih]
  cases e with
  | leaf k kind =>
    cases kind with
    | iota => exact absurd rfl (h k)
    | _ => rfl
  | call k callee es => simp only [evalIntegerConstExpr, hargs]
  | _ => rfl

/-- Away from a bare `iota`, the evaluator computes what the law has at the index zero. -/
theorem evalIntegerConstExpr_eq {e : Expr} (h : ∀ k, e ≠ .leaf k .iota) (n : BitVec 64)
    (r : IntOutcome) : Returns (evalIntegerConstExpr P) ⟨m, [], n, 0, 0, e⟩ r ↔
      Returns (evalAtIota P) ⟨m, [], 0, 0, 0, e⟩ r := by
  have hzero : Returns (evalIntegerConstExpr P) ⟨m, [], n, 0, 0, e⟩ r ↔
      Returns (evalIntegerConstExpr P) ⟨m, [], 0, 0, 0, e⟩ r := by
    rw [returns_iff, returns_iff, ← evalIntegerConstExpr_iota ⟨m, [], 0, 0, 0, e⟩ h n]
  have hruns : ∀ fuel, runs (evalAtIota P) fuel ⟨m, [], 0, 0, 0, e⟩
      = runs (evalIntegerConstExpr P) fuel ⟨m, [], 0, 0, 0, e⟩ := fun fuel =>
    runs_congr (S := fun d => d.iotaValue = 0) evalAtIota_zero
      (fun d _ => evalIntegerConstExpr_within P d) fuel _ rfl
  rw [hzero]
  exact exists_congr fun fuel => by rw [hruns]

/-! ## One field -/

/-- The number of an index. -/
abbrev counter (i : Nat) : BitVec 64 := BitVec.ofNat 64 i

theorem valueAt_iota {k : ExprKey} {i : Nat} {v : BitVec 64} :
    ValueAt P m (.leaf k .iota) i v ↔ v = counter i := by
  rw [ValueAt, returns_iff]
  show Evals _ (pure (Except.ok (counter i)) : Calls IntCall IntOutcome IntOutcome) _ ↔ _
  rw [evals_pure]
  exact ⟨fun h => by cases h; rfl, fun h => by rw [h]⟩

theorem returns_iota {k : ExprKey} {i : Nat} {r : IntOutcome} :
    Returns (evalIntegerConstExpr P) ⟨m, [], counter i, 0, 0, .leaf k .iota⟩ r ↔
      r = .ok (counter i) := by
  rw [returns_iff]
  show Evals _ (pure (Except.ok (counter i)) : Calls IntCall IntOutcome IntOutcome) _ ↔ _
  rw [evals_pure]
  exact eq_comm

/-- A steady initializer is folded to its value at the index. -/
theorem Steady.returns {e : Expr} {i : Nat} (h : Steady P m e i) :
    ∃ v, ValueAt P m e i v ∧ Returns (evalIntegerConstExpr P) ⟨m, [], counter i, 0, 0, e⟩ (.ok v) := by
  by_cases hiota : ∃ k, e = .leaf k .iota
  · obtain ⟨k, rfl⟩ := hiota
    exact ⟨counter i, valueAt_iota.2 rfl, returns_iota.2 rfl⟩
  · obtain hk | ⟨v, h0, hi⟩ := h
    · exact absurd hk hiota
    · exact ⟨v, hi, (evalIntegerConstExpr_eq (fun k hk => hiota ⟨k, hk⟩) _ _).2 h0⟩

/-- An initializer that is folded to its value at the index is steady there. -/
theorem Steady.of_returns {e : Expr} {i : Nat} {v : BitVec 64} (hv : ValueAt P m e i v)
    (h : Returns (evalIntegerConstExpr P) ⟨m, [], counter i, 0, 0, e⟩ (.ok v)) :
    Steady P m e i := by
  by_cases hiota : ∃ k, e = .leaf k .iota
  · exact .inl hiota
  · exact .inr ⟨v, (evalIntegerConstExpr_eq (fun k hk => hiota ⟨k, hk⟩) _ _).1 h, hv⟩

/-- An initializer that is folded at one index is folded at every index. -/
theorem returns_counter {e : Expr} {i j : Nat} {v : BitVec 64}
    (h : Returns (evalIntegerConstExpr P) ⟨m, [], counter i, 0, 0, e⟩ (.ok v)) :
    ∃ w, Returns (evalIntegerConstExpr P) ⟨m, [], counter j, 0, 0, e⟩ (.ok w) := by
  by_cases hiota : ∃ k, e = .leaf k .iota
  · obtain ⟨k, rfl⟩ := hiota
    exact ⟨counter j, returns_iota.2 rfl⟩
  · have hne : ∀ k, e ≠ .leaf k .iota := fun k hk => hiota ⟨k, hk⟩
    exact ⟨v, (evalIntegerConstExpr_eq hne _ _).2 ((evalIntegerConstExpr_eq hne _ _).1 h)⟩

/-- The initializer the field after some fields continues. -/
def templateOf (fields : List EnumField) : Option Expr :=
  (recentInit fields).filter containsIota

theorem recentInit_append (fields : List EnumField) (f : EnumField) :
    recentInit (fields ++ [f]) = f.init.or (recentInit fields) := by
  rw [recentInit, List.reverse_append, List.reverse_singleton, List.singleton_append,
    List.findSome?_cons]
  cases f.init <;> rfl

theorem templateOf_append (fields : List EnumField) (f : EnumField) :
    templateOf (fields ++ [f]) = nextTemplate (templateOf fields) f := by
  rw [templateOf, recentInit_append, nextTemplate]
  cases f.init with
  | none => rfl
  | some e => rfl

/-- The last initializer belongs to a field. -/
theorem exists_of_recentInit {fields : List EnumField} {e : Expr}
    (h : recentInit fields = some e) :
    ∃ (j : Nat) (f : EnumField), fields[j]? = some f ∧ f.init = some e := by
  obtain ⟨f, hf, he⟩ := List.exists_of_findSome?_eq_some h
  obtain ⟨j, hj⟩ := List.mem_iff_getElem?.1 (List.mem_reverse.1 hf)
  exact ⟨j, f, hj, he⟩

theorem fieldValue_own {n v : BitVec 64} {t : Option Expr} {f : EnumField}
    {reports : List EnumReport} {e : Expr} (he : f.init = some e)
    (h : Evals (evalIntegerConstExpr P) (fieldValue m n t f) (v, reports))
    (hreports : EnumReport.notConstant f.name ∉ reports) :
    Returns (evalIntegerConstExpr P) ⟨m, [], n, 0, 0, e⟩ (.ok v) := by
  simp only [fieldValue, he] at h
  obtain ⟨r, hr, h⟩ := evals_bind.1 h
  rw [evalFieldInit, evals_call] at hr
  rcases r with failure | w
  · rw [evals_pure, Prod.mk.injEq] at h
    exact absurd (h.2 ▸ List.mem_singleton_self _) hreports
  · rw [evals_pure, Prod.mk.injEq] at h
    rwa [← h.1]

theorem fieldValue_carried {n v w : BitVec 64} {f : EnumField} {reports : List EnumReport}
    {e : Expr} (he : f.init = none)
    (h : Evals (evalIntegerConstExpr P) (fieldValue m n (some e) f) (v, reports))
    (hw : Returns (evalIntegerConstExpr P) ⟨m, [], n, 0, 0, e⟩ (.ok w)) :
    v = w := by
  simp only [fieldValue, he] at h
  obtain ⟨r, hr, h⟩ := evals_bind.1 h
  rw [evalFieldInit, evals_call] at hr
  cases hr.unique hw
  rw [evals_pure, Prod.mk.injEq] at h
  exact h.1.symm

theorem fieldValue_index {n v : BitVec 64} {f : EnumField} {reports : List EnumReport}
    (he : f.init = none)
    (h : Evals (evalIntegerConstExpr P) (fieldValue m n none f) (v, reports)) : v = n := by
  simp only [fieldValue, he, evals_pure, Prod.mk.injEq] at h
  exact h.1.symm

/-! ## All fields -/

theorem counter_succ (i : Nat) : counter i + 1 = counter (i + 1) := by
  simp [counter, BitVec.ofNat_add]

/-- Every field of a layout has the value of its own step. -/
theorem layoutFields_spec (before rest : List EnumField) (info : List EnumFieldInfo)
    {infos : List EnumFieldInfo} {reports : List EnumReport} (hinfo : info.length = before.length)
    (h : Evals (evalIntegerConstExpr P)
      (layoutFields m info (counter before.length) (templateOf before) rest) (infos, reports)) :
    (∀ i < before.length, infos[i]? = info[i]?) ∧
    ∀ i f, before.length ≤ i → (before ++ rest)[i]? = some f →
      ∃ v reports', infos[i]? = some ⟨f.name, v⟩ ∧ reports' ⊆ reports ∧
        Evals (evalIntegerConstExpr P)
          (fieldValue m (counter i) (templateOf ((before ++ rest).take i)) f) (v, reports') := by
  induction rest generalizing before info reports with
  | nil =>
    rw [layoutFields, evals_pure, Prod.mk.injEq] at h
    refine ⟨fun i _ => by rw [h.1], fun i f hi hf => ?_⟩
    obtain ⟨hlt, -⟩ := List.getElem?_eq_some_iff.1 hf
    rw [List.append_nil] at hlt
    exact absurd hi (Nat.not_le.2 hlt)
  | cons field rest ih =>
    obtain ⟨⟨v, here⟩, hv, h⟩ := evals_bind.1 h
    obtain ⟨⟨infos', more⟩, hmore, h⟩ := evals_bind.1 h
    rw [evals_pure, Prod.mk.injEq] at h
    obtain ⟨rfl, rfl⟩ := h
    rw [counter_succ, ← templateOf_append] at hmore
    obtain ⟨hkept, hfields⟩ := ih (before ++ [field])
      (info ++ [⟨field.name, v⟩]) (by simp [hinfo]) (by simpa using hmore)
    rw [List.append_assoc, List.singleton_append] at hfields
    rw [List.length_append, List.length_singleton] at hkept hfields
    constructor
    · intro i hi
      rw [hkept i (Nat.lt_succ_of_lt hi), List.getElem?_append_left (hinfo ▸ hi)]
    · intro i f hi hf
      obtain rfl | hlt := Nat.eq_or_lt_of_le hi
      · rw [List.getElem?_append_right le_rfl, Nat.sub_self] at hf
        cases hf
        refine ⟨v, here, ?_, fun r hr => ?_, ?_⟩
        · rw [hkept _ (Nat.lt_succ_self _), ← hinfo, List.getElem?_append_right le_rfl,
            Nat.sub_self]
          rfl
        · exact List.mem_append_left _ (List.mem_append_left _ hr)
        · rwa [List.take_left]
      · obtain ⟨w, reports', hw, hsub, heval⟩ := hfields i f hlt hf
        exact ⟨w, reports', hw, fun r hr => List.mem_append_right _ (hsub hr), heval⟩

/-- A layout ends without a report of a field that is not constant if every step does. -/
theorem layoutFields_exists (before rest : List EnumField) (info : List EnumFieldInfo)
    (h : ∀ i f, before.length ≤ i → (before ++ rest)[i]? = some f →
      ∃ v, Evals (evalIntegerConstExpr P)
        (fieldValue m (counter i) (templateOf ((before ++ rest).take i)) f) (v, [])) :
    ∃ infos reports, Evals (evalIntegerConstExpr P)
      (layoutFields m info (counter before.length) (templateOf before) rest) (infos, reports) ∧
      ∀ x, EnumReport.notConstant x ∉ reports := by
  induction rest generalizing before info with
  | nil => exact ⟨info, [], evals_pure.2 rfl, fun x hx => by cases hx⟩
  | cons field rest ih =>
    obtain ⟨v, hv⟩ := h before.length field le_rfl
      (by rw [List.getElem?_append_right le_rfl, Nat.sub_self]; rfl)
    rw [List.take_left] at hv
    obtain ⟨infos, more, hmore, hnone⟩ := ih (before ++ [field])
      (info ++ [⟨field.name, v⟩]) fun i f hi hf => by
        rw [List.append_assoc, List.singleton_append] at hf ⊢
        rw [List.length_append] at hi
        exact h i f (Nat.le_of_succ_le hi) hf
    rw [templateOf_append, List.length_append] at hmore
    refine ⟨infos, [] ++ duplicateReports info field ++ more,
      evals_bind.2 ⟨_, hv, evals_bind.2 ⟨(infos, more), ?_, evals_pure.2 rfl⟩⟩, fun x hx => ?_⟩
    · rw [counter_succ]
      exact hmore
    · obtain hx | hx := List.mem_append.1 hx
      · obtain ⟨_, -, hx⟩ := List.mem_map.1 ((List.nil_append _) ▸ hx)
        cases hx
      · exact hnone x hx

/-- The value of a step that reports nothing follows the law where the field is at the
    top, and the field is at the top where it follows the law. -/
theorem follows_iff_atTop {fields : List EnumField} {i : Nat} {f : EnumField} {v : BitVec 64}
    {reports : List EnumReport} (hf : fields[i]? = some f)
    (h : Evals (evalIntegerConstExpr P)
      (fieldValue m (counter i) (templateOf (fields.take i)) f) (v, reports))
    (hreports : EnumReport.notConstant f.name ∉ reports)
    (hearlier : ∀ e, recentInit (fields.take i) = some e →
      ∃ w, Returns (evalIntegerConstExpr P) ⟨m, [], counter i, 0, 0, e⟩ (.ok w)) :
    IotaLaw P m fields i v ↔ AtTop P m fields i := by
  rw [IotaLaw, AtTop, hf, Option.bind_some]
  cases hinit : f.init with
  | some e =>
    have hv := fieldValue_own hinit h hreports
    refine ⟨fun hlaw => .of_returns hlaw hv, fun hsteady => ?_⟩
    obtain ⟨w, hw, hw'⟩ := hsteady.returns
    cases hw'.unique hv
    exact hw
  | none =>
    cases hrecent : recentInit (fields.take i) with
    | none =>
      rw [templateOf, hrecent] at h
      exact iff_of_true (fieldValue_index hinit h) trivial
    | some e =>
      obtain ⟨w, hw⟩ := hearlier e hrecent
      dsimp only
      split_ifs with hiota
      · rw [templateOf, hrecent, Option.filter_some_pos hiota] at h
        cases fieldValue_carried hinit h hw
        have hmentions := MentionsIota.of_containsIota hiota
        refine ⟨fun hlaw => .of_returns (hlaw.1 hmentions) hw, fun hsteady => ?_⟩
        obtain ⟨u, hu, hu'⟩ := hsteady.returns
        cases hu'.unique hw
        exact ⟨fun _ => hu, fun hno => absurd hmentions hno⟩
      · rw [templateOf, hrecent, Option.filter_some_neg (Bool.eq_false_iff.2 hiota)] at h
        cases fieldValue_index hinit h
        exact and_iff_left fun _ => rfl

/-- The step of a field at the top ends without a report. -/
theorem AtTop.evals {fields : List EnumField} {i : Nat} {f : EnumField}
    (hf : fields[i]? = some f) (h : AtTop P m fields i) :
    ∃ v, Evals (evalIntegerConstExpr P)
      (fieldValue m (counter i) (templateOf (fields.take i)) f) (v, []) := by
  rw [AtTop, hf, Option.bind_some] at h
  have hreturns : ∀ {e v}, Returns (evalIntegerConstExpr P) ⟨m, [], counter i, 0, 0, e⟩ (.ok v) →
      Evals (evalIntegerConstExpr P) (evalFieldInit m e (counter i)) (.ok v) := evals_call.2
  cases hinit : f.init with
  | some e =>
    rw [hinit] at h
    obtain ⟨v, -, hv⟩ := Steady.returns h
    refine ⟨v, ?_⟩
    simp only [fieldValue, hinit]
    exact evals_bind.2 ⟨_, hreturns hv, evals_pure.2 rfl⟩
  | none =>
    simp only [fieldValue, hinit]
    cases htemplate : templateOf (fields.take i) with
    | none => exact ⟨_, evals_pure.2 rfl⟩
    | some e =>
      obtain ⟨hrecent, hiota⟩ := Option.filter_eq_some_iff.1 htemplate
      rw [hinit, hrecent] at h
      dsimp only at h
      rw [if_pos hiota] at h
      obtain ⟨v, -, hv⟩ := h.returns
      exact ⟨v, evals_bind.2 ⟨_, hreturns hv, evals_pure.2 rfl⟩⟩

/-- The initializers of a layout without reports are folded at every index. -/
theorem returns_of_recentInit {fields : List EnumField} {i : Nat} {e : Expr}
    (hsteps : ∀ (j : Nat) f, fields[j]? = some f → ∃ v reports, EnumReport.notConstant f.name ∉ reports ∧
      Evals (evalIntegerConstExpr P) (fieldValue m (counter j) (templateOf (fields.take j)) f)
        (v, reports))
    (h : recentInit (fields.take i) = some e) :
    ∃ w, Returns (evalIntegerConstExpr P) ⟨m, [], counter i, 0, 0, e⟩ (.ok w) := by
  obtain ⟨j, f, hj, he⟩ := exists_of_recentInit h
  obtain ⟨hlt, -⟩ := List.getElem?_eq_some_iff.1 hj
  rw [List.getElem?_take_of_lt (lt_of_lt_of_le hlt (List.length_take_le _ _))] at hj
  obtain ⟨v, reports, hreports, hv⟩ := hsteps j f hj
  exact returns_counter (fieldValue_own he hv hreports)

/-- The values of an enumeration follow the law exactly when every field is at the top. -/
theorem layoutEnum_follows_iff (P : Program) (m : ModulePath) (decl : EnumDecl) :
    Follows P m decl ↔ ∀ i < decl.fields.length, AtTop P m decl.fields i := by
  constructor
  · rintro ⟨info, reports, h, hreports, hlaw⟩ i hi
    obtain ⟨⟨infos, _⟩, hrun, hinfo⟩ := evals_bind.1 h
    rw [evals_pure, Prod.mk.injEq] at hinfo
    obtain ⟨rfl, rfl⟩ := hinfo
    obtain ⟨-, hfields⟩ := layoutFields_spec [] _ [] rfl hrun
    have hsteps : ∀ (j : Nat) f, decl.fields[j]? = some f → ∃ v reports,
        EnumReport.notConstant f.name ∉ reports ∧ Evals (evalIntegerConstExpr P)
          (fieldValue m (counter j) (templateOf (decl.fields.take j)) f) (v, reports) := by
      intro j f hf
      obtain ⟨v, reports', -, hsub, hv⟩ := hfields j f (Nat.zero_le j) hf
      exact ⟨v, reports', fun hx => hreports _ (hsub hx), hv⟩
    obtain ⟨v, reports', hget, hsub, hv⟩ :=
      hfields i decl.fields[i] (Nat.zero_le i) (List.getElem?_eq_getElem hi)
    obtain ⟨f, hf, hlaw⟩ := hlaw i hi
    cases hget.symm.trans hf
    exact (follows_iff_atTop (List.getElem?_eq_getElem hi) hv (fun hx => hreports _ (hsub hx))
      fun e => returns_of_recentInit hsteps).1 hlaw
  · intro htop
    have hsteps : ∀ (j : Nat) f, decl.fields[j]? = some f → ∃ v, Evals (evalIntegerConstExpr P)
        (fieldValue m (counter j) (templateOf (decl.fields.take j)) f) (v, []) := fun j f hf =>
      AtTop.evals hf (htop j (List.getElem?_eq_some_iff.1 hf).1)
    obtain ⟨infos, reports, h, hreports⟩ := layoutFields_exists [] decl.fields []
      fun i f _ hf => hsteps i f hf
    refine ⟨_, reports, evals_bind.2 ⟨_, h, evals_pure.2 rfl⟩, hreports, fun i hi => ?_⟩
    obtain ⟨-, hfields⟩ := layoutFields_spec [] _ [] rfl h
    obtain ⟨v, reports', hget, hsub, hv⟩ :=
      hfields i decl.fields[i] (Nat.zero_le i) (List.getElem?_eq_getElem hi)
    refine ⟨_, hget, (follows_iff_atTop (List.getElem?_eq_getElem hi) hv
      (fun hx => hreports _ (hsub hx)) fun e => returns_of_recentInit fun j f hf => ?_).2 (htop i hi)⟩
    obtain ⟨w, hw⟩ := hsteps j f hf
    exact ⟨w, [], List.not_mem_nil, hw⟩

/-- The enumeration of the language's own description: `red`, `green = iota * 10`, `blue`. -/
def colorEnum : EnumDecl where
  underlyingType := some (.int 32 false)
  fields :=
    [⟨"red", none⟩, ⟨"green", some (.binary 0 .mul (.leaf 1 .iota) (.literalInteger 2 10))⟩,
      ⟨"blue", none⟩]

/-- A program with one empty module. -/
def emptyProgram : Program where
  modules := [("main", ⟨[], [], [], [], []⟩)]
  enums := []
  bitsets := []
  structs := []
  rttiEnabled := false
  genericEnv := []
  sizeOf := fun _ _ => 0
  alignOf := fun _ _ => 0

/-- Every field of the enumeration has a value by the law, but the layout gives `green` the
    value zero. -/
theorem color_not_follows :
    (∀ i < colorEnum.fields.length, ∃ v, IotaLaw emptyProgram "main" colorEnum.fields i v) ∧
      ¬ Follows emptyProgram "main" colorEnum := by
  have hgreen : ValueAt emptyProgram "main"
      (.binary 0 .mul (.leaf 1 .iota) (.literalInteger 2 10)) 1 10 := ⟨3, by decide⟩
  have hblue : ValueAt emptyProgram "main"
      (.binary 0 .mul (.leaf 1 .iota) (.literalInteger 2 10)) 2 20 := ⟨3, by decide⟩
  have hlayout : Evals (evalIntegerConstExpr emptyProgram) (layoutEnum "main" colorEnum)
      (⟨"main", .int 32 false, [⟨"red", 0⟩, ⟨"green", 0⟩, ⟨"blue", 0⟩]⟩, []) := ⟨4, by decide⟩
  constructor
  · intro i hi
    match i, hi with
    | 0, _ => exact ⟨0, rfl⟩
    | 1, _ => exact ⟨10, hgreen⟩
    | 2, _ => exact ⟨20, fun _ => hblue, fun hno => absurd (.lhs .iota) hno⟩
  · rintro ⟨info, reports, h, -, hlaw⟩
    cases h.unique hlayout
    obtain ⟨f, hf, hlaw⟩ := hlaw 1 (by decide)
    cases hf
    have hzero : ValueAt emptyProgram "main"
      (.binary 0 .mul (.leaf 1 .iota) (.literalInteger 2 10)) 1 0 := hlaw
    exact absurd (hzero.unique hgreen) (by decide)

end Mirage.Consts
