import Mirage.Lang.Narrowing

/-!
# The typestate of error locals is sound

In every run of an accepted function whose nested parts are left settled, everything the
checker knows of the error locals is the case, and every `match` finds an error that has
failed (`typestate_sound`).

The invariant of a run (`Inv`) speaks of the deferred bodies that are still to run. What
holds of the variables at a point
of the program is a precondition (`Good`): they are the ones the checker has in scope
(`Fits`), each error local has a location of its own (`Env.Ok`), and the scope is sound.
The location counter only grows, so that the variables of an outer scope keep
their locations (`Keeps.good`).

The specifications of `eval` and `exec` are by induction on the number of steps, with one
case for each form of expression and statement.
-/

namespace Mirage.Typestate

open Ast Run

variable {T : Types} {ω : World} {locals locals' : LocalScope} {env env' : Env} {st st' : Store}
  {x : Name} {e : Expr} {v : Bool} {N : Loc} {k : Nesting} {P : State → Prop} {α : Type}

/-! ## The invariant of a run -/

/-- What the checker takes to be the case at an event is the case. -/
def Event.Right : Event → Prop
  | .point locals env store => Sound locals env store
  | .matched x env store => ∀ l, env.find x = some l → store l = true
  | .left .. => True

/-- A `match` on a local that has not failed. -/
def Event.readsOk : Event → Bool
  | .matched x env store => (env.find x).any fun l => !store l
  | _ => false

theorem Event.not_right_of_readsOk {ev : Event} (h : ev.readsOk = true) : ¬ ev.Right := by
  cases ev with
  | matched x env store =>
    obtain ⟨l, hl, hst⟩ := (Option.any_eq_true _ _).1 h
    intro hright
    simp [hright l hl] at hst
  | _ => cases h

/-- Every error local has a location of its own, among those that are used up. -/
structure Env.Ok (env : Env) (N : Loc) : Prop where
  below : ∀ x l, env.find x = some l → l < N
  inj : ∀ x y l, env.find x = some l → env.find y = some l → x = y

theorem Env.Ok.mono {N' : Loc} (h : env.Ok N) (hN : N ≤ N') : env.Ok N' :=
  ⟨fun x l hx => Nat.lt_of_lt_of_le (h.below x l hx) hN, h.inj⟩

/-- A deferred body that was accepted at its `defer`. -/
structure Deferred.Ok (T : Types) (N : Loc) (d : Deferred) : Prop where
  fits : Fits d.locals d.env
  envOk : d.env.Ok N
  sound : Sound d.locals d.env d.store
  accepted : ∃ locals', checkStmt T d.nesting d.locals d.body = some locals'

theorem Deferred.Ok.mono {N' : Loc} {d : Deferred} (h : d.Ok T N) (hN : N ≤ N') : d.Ok T N' :=
  { h with envOk := h.envOk.mono hN }

/-- The invariant of a run, in which the locations below `N` are used up. -/
structure Inv (T : Types) (N : Loc) (σ : State) : Prop where
  next : N ≤ σ.next
  defers : ∀ d ∈ σ.defers, d.Ok T σ.next

/-- As long as nested parts are left settled, the checker is right. -/
def contract (T : Types) (N : Loc) : Contract State Event := ⟨Event.Settled, Event.Right, Inv T N⟩

/-- The variables at a point of the program are as the checker has them. -/
structure Good (locals : LocalScope) (env : Env) (σ : State) : Prop where
  fits : Fits locals env
  envOk : env.Ok σ.next
  sound : Sound locals env σ.store

/-- The scope is sound for the store of the state. -/
def SoundAt (locals : LocalScope) (env : Env) (σ : State) : Prop := Sound locals env σ.store

/-- A computation may take all locations that are used up so far to stay so. -/
theorem Keeps.next {x : Run State Event α} {Q : α → State → Prop}
    (h : ∀ N', N ≤ N' → Keeps (contract T N') (fun σ => P σ ∧ σ.next = N') x Q) :
    Keeps (contract T N) P x Q := by
  intro σ hI hP hev
  obtain ⟨hg, hQ⟩ := h σ.next hI.next σ ⟨Nat.le_refl _, hI.defers⟩ ⟨hP, rfl⟩ hev
  refine ⟨hg, fun a ha => ?_⟩
  obtain ⟨hI', hQ⟩ := hQ a ha
  exact ⟨⟨Nat.le_trans hI.next hI'.next, hI'.defers⟩, hQ⟩

theorem Keeps.good {x : Run State Event α} {Q : α → State → Prop}
    (h : ∀ N', N ≤ N' → Fits locals env → env.Ok N' →
      Keeps (contract T N') (SoundAt locals env) x Q) :
    Keeps (contract T N) (Good locals env) x Q := by
  refine Keeps.next fun N' hN σ hI ⟨hg, hnext⟩ => ?_
  exact h N' hN hg.fits (hnext ▸ hg.envOk) σ hI hg.sound

/-! ## Steps -/

theorem choose_spec (hP : ∀ σ, P σ → P { σ with tick := σ.tick + 1 }) :
    Keeps (contract T N) P (choose ω) fun _ => P :=
  fun σ hI h _ => ⟨nofun, fun _ _ => ⟨⟨hI.next, hI.defers⟩, hP σ h⟩⟩

theorem passPoint_spec :
    Keeps (contract T N) (SoundAt locals env) (passPoint locals env) fun _ => SoundAt locals env :=
  (Keeps.emit fun _ _ h => h).mono (fun _ h => h) fun _ _ h => h.1

theorem leave_spec {before : Store} :
    Keeps (contract T N) P (leave env before) fun _ σ => P σ ∧ Agree env before σ.store :=
  (Keeps.emit fun _ _ _ => trivial).mono (fun _ h => h) fun _ _ h => ⟨h.1, agree_of_settled h.2⟩

/-- The store at the time, of which the scope is sound. -/
theorem getStore_spec : Keeps (contract T N) (SoundAt locals env) (Run.get State.store)
    fun before σ => Sound locals env before ∧ SoundAt locals env σ :=
  Keeps.get fun _ _ h => ⟨h, h⟩

/-- A part that is left settled leaves the scope sound. -/
theorem leave_sound {before : Store} (h : Sound locals env before) :
    Keeps (contract T N) P (leave env before) fun _ => SoundAt locals env :=
  leave_spec.mono (fun _ h => h) fun _ _ hs => h.agree hs.2

theorem effect_spec :
    Keeps (contract T N) (SoundAt locals env) (effect ω env) fun _ => SoundAt locals env := by
  refine getStore_spec.bind fun before => .of_pre fun hb => ?_
  refine (choose_spec fun _ h => h).bind fun c => ?_
  exact Keeps.bind (Q := fun _ _ => True) (Keeps.modify (fun σ hI _ => ⟨hI.next, hI.defers⟩)
    fun _ _ _ => trivial) fun _ => leave_sound hb

theorem stateIn_invalidate_ne {y : Name} (h : y ≠ x) :
    stateIn (locals.invalidate x) y = stateIn locals y := by
  rw [LocalScope.invalidate]
  split
  · split_ifs
    · exact stateIn_setState_ne h
    · rfl
  · rfl

theorem not_known_invalidate : ¬ (stateIn (locals.invalidate x) x).Known := by
  rw [LocalScope.invalidate]
  split
  · rename_i b hb
    split_ifs with h
    · rw [stateIn_setState_self, hb]
      simp [ErrorState.Known]
    · simp only [ne_eq, not_not] at h
      simp [stateIn, hb, h, ErrorState.Known]
  · rename_i hb
    simp [stateIn, hb, ErrorState.Known]

theorem assignLocal_spec (henv : env.Ok N) :
    Keeps (contract T N) (SoundAt locals env) (assignLocal ω env x)
      fun _ => SoundAt (locals.invalidate x) env := by
  refine (choose_spec fun _ h => h).bind fun c => ?_
  split
  · rename_i l hl
    refine Keeps.modify (fun σ hI _ => ⟨hI.next, hI.defers⟩) fun σ _ h => ?_
    refine sound_of_stateIn fun y => holds_of_known fun hk => ?_
    have hy : y ≠ x := fun hy => not_known_invalidate (hy ▸ hk)
    rw [stateIn_invalidate_ne hy]
    -- another local has another location
    have hne : ∀ l', env.find y = some l' → l' ≠ l := fun l' hl' hll =>
      hy (henv.inj y x l (hll ▸ hl') hl)
    obtain ⟨hf, ho⟩ := h.stateIn y
    refine ⟨fun hs => ?_, fun hs => ?_⟩
    · obtain ⟨l', hl', hst⟩ := hf hs
      exact ⟨l', hl', by simpa [hne l' hl'] using hst⟩
    · obtain ⟨l', hl', hst⟩ := ho hs
      exact ⟨l', hl', by simpa [hne l' hl'] using hst⟩
  · exact Keeps.pure fun σ _ h => (le_invalidate _ _).sound h

/-! ## New variables -/

theorem find_cons_ne {o : Option Loc} {y : Name} (h : x ≠ y) :
    Env.find ((y, o) :: env) x = env.find x := by
  simp [Env.find, List.lookup_cons, beq_eq_false_iff_ne.2 h]

theorem find_cons_self {o : Option Loc} : Env.find ((x, o) :: env) x = o := by
  simp [Env.find]

theorem fits_declare {d : Decl} {tracked : Bool} {o : Option Loc} (h : Fits locals env)
    (ho : o.isSome = T.decl d.id) : Fits (locals.declare T d tracked) ((d.name, o) :: env) := by
  intro y
  by_cases hy : y = d.name
  · rw [hy, find_cons_self, ho]
    simp [findErrorLocal, LocalScope.declare, LocalScope.set]
  · rw [find_cons_ne hy, ← h y]
    simp [findErrorLocal, declare_ne hy]

theorem sound_declare {d : Decl} {tracked : Bool} {o : Option Loc} (h : Sound locals env st)
    (hst : Agree env st st') : Sound (locals.declare T d tracked) ((d.name, o) :: env) st' := by
  refine sound_of_stateIn fun y => holds_of_known fun hk => ?_
  have hy : y ≠ d.name := fun hy => stateIn_declare (hy ▸ hk)
  have hs : Holds env st' y (stateIn locals y) := (h.stateIn y).agree hst
  have heq : stateIn (locals.declare T d tracked) y = stateIn locals y := by
    simp only [stateIn, declare_ne hy]
  exact heq ▸ hs.of_find (find_cons_ne hy)

/-- The variables after declarations: the new scope, and the old locations of the other
    names. -/
structure Declared (T : Types) (locals : LocalScope) (env : Env) (ds : List Decl) (tracked : Bool)
    (env' : Env) (σ : State) : Prop where
  good : Good (declareAll T locals ds tracked) env' σ
  find : ∀ x, (∀ d ∈ ds, d.name ≠ x) → env'.find x = env.find x

theorem bindDecl_spec (tracked : Bool) {d : Decl} (hfits : Fits locals env) (henv : env.Ok N) :
    Keeps (contract T N) (SoundAt locals env) (bindDecl T ω env d)
      (Declared T locals env [d] tracked) := by
  have hfind : ∀ {o : Option Loc} x, (∀ d' ∈ [d], d'.name ≠ x) →
      Env.find ((d.name, o) :: env) x = env.find x := fun x hx =>
    find_cons_ne (Ne.symm (hx d List.mem_cons_self))
  rw [bindDecl]
  split_ifs with hd
  · intro σ hI hs _
    refine ⟨nofun, fun env' henv' => ⟨⟨Nat.le_succ_of_le hI.next,
      fun d hd => (hI.defers d hd).mono (Nat.le_succ _)⟩, ?_⟩⟩
    obtain rfl : (d.name, some σ.next) :: env = env' := Option.some.inj henv'
    have hbelow := (henv.mono hI.next).below
    have hagree : Agree env σ.store
        fun l' => if l' = σ.next then (ω σ.tick).bit else σ.store l' := fun x l hl =>
      if_neg (Nat.ne_of_lt (hbelow x l hl))
    refine ⟨⟨fits_declare hfits (by simp [hd]), ⟨fun x l hl => ?_, fun x y l hx hy => ?_⟩,
      sound_declare hs hagree⟩, hfind⟩
    · by_cases hx : x = d.name
      · rw [hx, find_cons_self] at hl
        exact Option.some.inj hl ▸ Nat.lt_succ_self _
      · rw [find_cons_ne hx] at hl
        exact Nat.lt_succ_of_lt (hbelow x l hl)
    · by_cases hxd : x = d.name <;> by_cases hyd : y = d.name
      · rw [hxd, hyd]
      · rw [hxd, find_cons_self] at hx
        rw [find_cons_ne hyd] at hy
        exact absurd (Option.some.inj hx ▸ hbelow y l hy) (Nat.lt_irrefl _)
      · rw [hyd, find_cons_self] at hy
        rw [find_cons_ne hxd] at hx
        exact absurd (Option.some.inj hy ▸ hbelow x l hx) (Nat.lt_irrefl _)
      · rw [find_cons_ne hxd] at hx
        rw [find_cons_ne hyd] at hy
        exact henv.inj x y l hx hy
  · refine Keeps.pure fun σ hI hs => ?_
    refine ⟨⟨fits_declare hfits (by simp [hd]), ⟨fun x l hl => ?_, fun x y l hx hy => ?_⟩,
      sound_declare hs (Agree.refl _ _)⟩, hfind⟩
    · by_cases hx : x = d.name
      · rw [hx, find_cons_self] at hl
        cases hl
      · rw [find_cons_ne hx] at hl
        exact (henv.mono hI.next).below x l hl
    · by_cases hxd : x = d.name
      · rw [hxd, find_cons_self] at hx
        cases hx
      by_cases hyd : y = d.name
      · rw [hyd, find_cons_self] at hy
        cases hy
      · rw [find_cons_ne hxd] at hx
        rw [find_cons_ne hyd] at hy
        exact henv.inj x y l hx hy

theorem bindDecls_spec (tracked : Bool) (ds : List Decl) (hfits : Fits locals env)
    (henv : env.Ok N) : Keeps (contract T N) (SoundAt locals env) (bindDecls T ω ds env)
      (Declared T locals env ds tracked) := by
  induction ds generalizing locals env N with
  | nil =>
    rw [bindDecls]
    exact Keeps.pure fun σ hI hs => ⟨⟨hfits, henv.mono hI.next, hs⟩, fun _ _ => rfl⟩
  | cons d ds ih =>
    rw [bindDecls]
    refine (bindDecl_spec tracked hfits henv).bind fun env1 => ?_
    refine Keeps.fix fun σ hd => (Keeps.good fun N' _ hf he => ih hf he).mono
      (fun σ' hσ => hσ ▸ hd.good) fun env' σ' h => ?_
    refine ⟨h.good, fun x hx => (h.find x fun d' hd' => hx d' (List.mem_cons_of_mem _ hd')).trans ?_⟩
    exact hd.find x fun d' hd' => hx d' (by simp only [List.mem_singleton] at hd'; simp [hd'])

theorem bindCapture_spec {c : Option Decl} (hfits : Fits locals env) (henv : env.Ok N) :
    Keeps (contract T N) (SoundAt locals env) (bindCapture T ω env c) (Good (locals.capture T c)) := by
  have hstay : Keeps (contract T N) (SoundAt locals env) (pure env) (Good locals) :=
    Keeps.pure fun σ hI hs => ⟨hfits, henv.mono hI.next, hs⟩
  cases c with
  | none => exact hstay
  | some d =>
    rw [bindCapture, LocalScope.capture]
    split_ifs with hd
    · exact (bindDecl_spec false hfits henv).mono (fun _ h => h) fun _ _ h => h.good
    · exact hstay

/-! ## Expressions -/

/-- An accepted `match` on an error local is on one that has failed. -/
theorem failed_of_checkMatchOperand {key : ExprKey} {l : Loc} (hfits : Fits locals env)
    (hs : Sound locals env st) (h : checkMatchOperand T locals (.ident key x) = true)
    (hl : env.find x = some l) : st l = true := by
  have hx : findErrorLocal locals x = true := by rw [hfits x, hl]; rfl
  have herr : operandIsError T locals (.ident key x) = true := by
    rw [findErrorLocal] at hx
    rw [operandIsError]
    split at hx
    · exact hx
    · cases hx
  rw [checkMatchOperand, if_pos herr] at h
  simp only [hx, Bool.true_and, decide_eq_true_eq] at h
  obtain ⟨l', hl', hst⟩ := (hs.stateIn x).failed h
  rw [hl] at hl'
  exact Option.some.inj hl' ▸ hst

theorem matchOperand_spec (hfits : Fits locals env) (h : checkMatchOperand T locals e = true) :
    Keeps (contract T N) (SoundAt locals env) (matchOperand env e) fun _ => SoundAt locals env := by
  rw [matchOperand.eq_def]
  split
  · refine (Keeps.emit fun σ _ hs => ?_).mono (fun _ hs => hs) fun _ _ hs => hs.1
    exact fun l hl => failed_of_checkMatchOperand hfits hs h hl
  · exact Keeps.pure fun _ _ hs => hs

/-- An expression is checked by way of the operands it evaluates first. -/
theorem checkExpr_operands (h : checkExpr T locals e = some locals') :
    ∃ l, checkExprs T locals (operands e) = some l ∧ Le locals' l := by
  have hle := checkExpr_le e h
  cases e with
  | unary key op operand =>
    rw [checkExpr] at h
    obtain ⟨l, h1, h2⟩ := Option.bind_eq_some_iff.1 h
    refine ⟨l, by simp [operands, checkExprs, h1], ?_⟩
    split at h2
    · exact Option.some.inj h2 ▸ le_invalidate _ _
    · exact Option.some.inj h2 ▸ .refl _
  | binary key op lhs rhs =>
    rw [checkExpr] at h
    obtain ⟨l, h1, h2⟩ := Option.bind_eq_some_iff.1 h
    exact ⟨locals', by simp [operands, checkExprs, h1, h2], .refl _⟩
  | assign key target value =>
    rw [checkExpr] at h
    obtain ⟨l, h1, h⟩ := Option.bind_eq_some_iff.1 h
    obtain ⟨l', h2, h⟩ := Option.bind_eq_some_iff.1 h
    refine ⟨l', by simp [operands, checkExprs, h1, h2], ?_⟩
    split at h
    · exact Option.some.inj h ▸ le_invalidate _ _
    · exact Option.some.inj h ▸ .refl _
  | call key callee args =>
    rw [checkExpr] at h
    exact ⟨locals', by rwa [operands, checkExprs], .refl _⟩
  | cast key value =>
    rw [checkExpr] at h
    exact ⟨locals', by simp [operands, checkExprs, h], .refl _⟩
  | member key object name =>
    rw [checkExpr] at h
    exact ⟨locals', by simp [operands, checkExprs, h], .refl _⟩
  | structExpr key names values =>
    rw [checkExpr] at h
    exact ⟨locals', h, .refl _⟩
  | arrayExpr key values =>
    rw [checkExpr] at h
    exact ⟨locals', h, .refl _⟩
  | compound key kind es =>
    rw [checkExpr] at h
    exact ⟨locals', h, .refl _⟩
  | _ => exact ⟨locals, by simp [operands, checkExprs], hle⟩

theorem tells_of_flat (ho : operandOf e = none) (ha : flattenLogicalChain .logicalAnd e = [e])
    (hor : flattenLogicalChain .logicalOr e = [e]) : Tells env st e v := by
  have htest : ∀ v, Says env st e v := fun v x neg l h => by simp [ho] at h
  exact ⟨htest v, fun _ o h => by rw [ha] at h; exact List.mem_singleton.1 h ▸ htest true,
    fun _ o h => by rw [hor] at h; exact List.mem_singleton.1 h ▸ htest false⟩

/-- A test of one local tells the truth when it is the status of the local. -/
theorem tells_of_test (h : Says env st e v) (ha : flattenLogicalChain .logicalAnd e = [e])
    (hor : flattenLogicalChain .logicalOr e = [e]) : Tells env st e v :=
  ⟨h, fun hv o ho => by rw [ha] at ho; exact List.mem_singleton.1 ho ▸ hv ▸ h,
    fun hv o ho => by rw [hor] at ho; exact List.mem_singleton.1 ho ▸ hv ▸ h⟩

theorem tells_not {key : ExprKey} {operand : Expr} (h : Says env st operand v) :
    Tells env st (.unary key .logicalNot operand) (!v) := by
  refine tells_of_test (fun x neg l ho hl => ?_) rfl rfl
  cases operand with
  | ident key y =>
    simp only [operandOf, Option.some.injEq, Prod.mk.injEq] at ho
    obtain ⟨rfl, rfl⟩ := ho
    simpa using h y false l rfl hl
  | _ => simp [operandOf] at ho

theorem tells_and {key : ExprKey} {lhs rhs : Expr} {w : Bool} (hv : Tells env st lhs v)
    (hw : v = true → Tells env st rhs w) :
    Tells env st (.binary key .logicalAnd lhs rhs) (v && w) := by
  have htest : ∀ v, Says env st (.binary key .logicalAnd lhs rhs) v :=
    fun v x neg l h => by simp [operandOf] at h
  refine ⟨htest _, fun htrue o ho => ?_, fun _ o ho => ?_⟩
  · rw [Bool.and_eq_true] at htrue
    rw [flattenLogicalChain, if_pos rfl, List.mem_append] at ho
    rcases ho with ho | ho
    · exact hv.and htrue.1 o ho
    · exact (hw htrue.1).and htrue.2 o ho
  · rw [flattenLogicalChain, if_neg (by simp)] at ho
    exact List.mem_singleton.1 ho ▸ htest false

theorem tells_or {key : ExprKey} {lhs rhs : Expr} {w : Bool} (hv : Tells env st lhs v)
    (hw : v = false → Tells env st rhs w) :
    Tells env st (.binary key .logicalOr lhs rhs) (v || w) := by
  have htest : ∀ v, Says env st (.binary key .logicalOr lhs rhs) v :=
    fun v x neg l h => by simp [operandOf] at h
  refine ⟨htest _, fun _ o ho => ?_, fun hfalse o ho => ?_⟩
  · rw [flattenLogicalChain, if_neg (by simp)] at ho
    exact List.mem_singleton.1 ho ▸ htest true
  · rw [Bool.or_eq_false_iff] at hfalse
    rw [flattenLogicalChain, if_pos rfl, List.mem_append] at ho
    rcases ho with ho | ho
    · exact hv.or hfalse.1 o ho
    · exact (hw hfalse.1).or hfalse.2 o ho

/-- What an expression establishes: the scope after it is sound, and its value tells the
    truth. -/
def Evals (locals' : LocalScope) (env : Env) (e : Expr) (v : Bool) (σ : State) : Prop :=
  SoundAt locals' env σ ∧ Tells env σ.store e v

def EvalSpec (T : Types) (ω : World) (n : Nat) : Prop :=
  ∀ {locals locals' : LocalScope} {env : Env} {e : Expr} {N : Loc},
    checkExpr T locals e = some locals' → Fits locals env → env.Ok N →
      Keeps (contract T N) (SoundAt locals env) (eval T ω n locals env e) (Evals locals' env e)

/-- A part whose scope is dropped leaves every scope around it sound. -/
def EvalLastSpec (T : Types) (ω : World) (n : Nat) : Prop :=
  ∀ {locals locals' : LocalScope} {env : Env} {e : Expr} {N : Loc} (before : Store),
    checkExpr T locals e = some locals' → Fits locals env → env.Ok N →
      Keeps (contract T N) (fun σ => σ.store = before ∧ SoundAt locals env σ)
        (evalLast T ω n locals env e)
        fun v σ => Evals locals' env e v σ ∧ Agree env before σ.store

def EvalsSpec (T : Types) (ω : World) (n : Nat) : Prop :=
  ∀ {locals locals' : LocalScope} {env : Env} {es : List Expr} {N : Loc},
    checkExprs T locals es = some locals' → Fits locals env → env.Ok N →
      Keeps (contract T N) (SoundAt locals env) (evals T ω n locals env es)
        fun _ => SoundAt locals' env

theorem after_eq (h : checkExpr T locals e = some locals') : after T locals e = locals' := by
  rw [after, h]
  rfl

theorem evalLast_step {n : Nat} (ih : EvalSpec T ω n) : EvalLastSpec T ω (n + 1) := by
  intro locals locals' env e N before h hfits henv
  rw [evalLast]
  refine (Keeps.get (Q := fun b σ => b = before ∧ SoundAt locals env σ)
    fun σ _ h => h).bind fun b => .of_pre fun hb => ?_
  refine (ih h hfits henv).bind fun v => ?_
  refine leave_spec.bind fun _ => Keeps.pure fun σ _ hs => ?_
  exact ⟨hs.1, hb ▸ hs.2⟩

theorem evals_step {n : Nat} (ih : EvalSpec T ω n) (ihs : EvalsSpec T ω n) :
    EvalsSpec T ω (n + 1) := by
  intro locals locals' env es N h hfits henv
  cases es with
  | nil =>
    rw [checkExprs] at h
    rw [evals]
    exact Keeps.pure fun σ _ hs => Option.some.inj h ▸ hs
  | cons e es =>
    rw [checkExprs] at h
    obtain ⟨l, h1, h2⟩ := Option.bind_eq_some_iff.1 h
    rw [evals]
    refine (ih h1 hfits henv).bind fun v => ?_
    rw [after_eq h1]
    exact (ihs h2 ((checkExpr_le e h1).fits hfits) henv).mono (fun _ hs => hs.1) fun _ _ hs => hs

/-- The expressions that only evaluate their operands. -/
def isPlain : Expr → Bool
  | .ident .. | .unary _ .logicalNot _ | .binary _ .logicalAnd .. | .binary _ .logicalOr ..
  | .ternary .. | .whenExpr .. | .assign _ (.ident ..) _ | .matchExpr .. => false
  | _ => true

theorem tells_of_isPlain (h : isPlain e = true) : Tells env st e v := by
  cases e with
  | ident => simp [isPlain] at h
  | unary key op operand =>
    cases op with
    | logicalNot => simp [isPlain] at h
    | _ => exact tells_of_flat rfl rfl rfl
  | binary key op lhs rhs =>
    cases op with
    | logicalAnd | logicalOr => simp [isPlain] at h
    | _ => exact tells_of_flat rfl rfl rfl
  | _ => exact tells_of_flat rfl rfl rfl

theorem eval_plain {n : Nat} (ihs : EvalsSpec T ω n) (hp : isPlain e = true)
    (h : checkExpr T locals e = some locals') (hfits : Fits locals env) (henv : env.Ok N) :
    Keeps (contract T N) (SoundAt locals env) (eval T ω (n + 1) locals env e)
      (Evals locals' env e) := by
  obtain ⟨l, hops, hle⟩ := checkExpr_operands h
  rw [eval]
  refine passPoint_spec.bind fun _ => (ihs hops hfits henv).bind fun _ => ?_
  · have hend : Keeps (contract T N) (SoundAt l env) (do let c ← choose ω; pure c.bit)
        (Evals locals' env e) := (choose_spec fun _ h => h).bind fun c => Keeps.pure fun σ _ hs =>
      ⟨hle.sound hs, tells_of_isPlain hp⟩
    dsimp only
    split_ifs
    · exact effect_spec.bind fun _ => hend
    · exact hend
  all_goals
    intros
    subst_vars
    simp [isPlain] at hp

theorem eval_ident {n : Nat} {key : ExprKey} (h : checkExpr T locals (.ident key x) = some locals') :
    Keeps (contract T N) (SoundAt locals env) (eval T ω (n + 1) locals env (.ident key x))
      (Evals locals' env (.ident key x)) := by
  rw [checkExpr] at h
  obtain rfl := Option.some.inj h
  rw [eval]
  refine passPoint_spec.bind fun _ => ?_
  split
  · rename_i l hl
    refine Keeps.get fun σ _ hs => ⟨hs, tells_of_test (fun y neg l' ho hl' => ?_) rfl rfl⟩
    simp only [operandOf, Option.some.injEq, Prod.mk.injEq] at ho
    obtain ⟨rfl, rfl⟩ := ho
    rw [hl] at hl'
    simp [Option.some.inj hl']
  · rename_i hl
    refine (choose_spec fun _ h => h).bind fun c => Keeps.pure fun σ _ hs =>
      ⟨hs, tells_of_test (fun y neg l' ho hl' => ?_) rfl rfl⟩
    simp only [operandOf, Option.some.injEq, Prod.mk.injEq] at ho
    obtain ⟨rfl, rfl⟩ := ho
    simp [hl] at hl'

/-- The right operand of a logical operator, after the left one. -/
theorem evalLast_right {n : Nat} {l : LocalScope} {lhs rhs : Expr} {a : Bool}
    (ihl : EvalLastSpec T ω n) (h : checkExpr T l rhs = some locals') (hfits : Fits l env)
    (henv : env.Ok N) :
    Keeps (contract T N) (Evals l env lhs a) (evalLast T ω n l env rhs)
      fun b σ => SoundAt locals' env σ ∧ Tells env σ.store lhs a ∧ Tells env σ.store rhs b := by
  refine Keeps.fix fun σ hs => (ihl σ.store h hfits henv).mono ?_ fun b σ' h' => ?_
  · rintro _ rfl
    exact ⟨rfl, hs.1⟩
  · exact ⟨h'.1.1, hs.2.agree h'.2, h'.1.2⟩

theorem eval_logicalAnd {n : Nat} {key : ExprKey} {lhs rhs : Expr} (ih : EvalSpec T ω n)
    (ihl : EvalLastSpec T ω n)
    (h : checkExpr T locals (.binary key .logicalAnd lhs rhs) = some locals')
    (hfits : Fits locals env) (henv : env.Ok N) :
    Keeps (contract T N) (SoundAt locals env)
      (eval T ω (n + 1) locals env (.binary key .logicalAnd lhs rhs))
      (Evals locals' env (.binary key .logicalAnd lhs rhs)) := by
  rw [checkExpr] at h
  obtain ⟨l, h1, h2⟩ := Option.bind_eq_some_iff.1 h
  rw [eval, after_eq h1]
  refine passPoint_spec.bind fun _ => (ih h1 hfits henv).bind fun a => ?_
  cases a with
  | true =>
    refine (evalLast_right ihl h2 ((checkExpr_le lhs h1).fits hfits) henv).mono (fun _ h => h)
      fun b σ hs => ⟨hs.1, ?_⟩
    exact tells_and hs.2.1 fun _ => hs.2.2
  | false =>
    refine Keeps.pure fun σ _ hs => ⟨(checkExpr_le rhs h2).sound hs.1, ?_⟩
    exact tells_and (w := false) hs.2 fun h => by cases h

theorem eval_logicalOr {n : Nat} {key : ExprKey} {lhs rhs : Expr} (ih : EvalSpec T ω n)
    (ihl : EvalLastSpec T ω n)
    (h : checkExpr T locals (.binary key .logicalOr lhs rhs) = some locals')
    (hfits : Fits locals env) (henv : env.Ok N) :
    Keeps (contract T N) (SoundAt locals env)
      (eval T ω (n + 1) locals env (.binary key .logicalOr lhs rhs))
      (Evals locals' env (.binary key .logicalOr lhs rhs)) := by
  rw [checkExpr] at h
  obtain ⟨l, h1, h2⟩ := Option.bind_eq_some_iff.1 h
  rw [eval, after_eq h1]
  refine passPoint_spec.bind fun _ => (ih h1 hfits henv).bind fun a => ?_
  cases a with
  | true =>
    refine Keeps.pure fun σ _ hs => ⟨(checkExpr_le rhs h2).sound hs.1, ?_⟩
    exact tells_or (w := true) hs.2 fun h => by cases h
  | false =>
    refine (evalLast_right ihl h2 ((checkExpr_le lhs h1).fits hfits) henv).mono (fun _ h => h)
      fun b σ hs => ⟨hs.1, ?_⟩
    exact tells_or hs.2.1 fun _ => hs.2.2

/-- The selected branch of a condition, in its scope. -/
theorem evalLast_branch {n : Nat} {c t f : Expr} {a : Bool} (ihl : EvalLastSpec T ω n)
    (htells : ∀ {st v}, Tells env st e v) (ht : ∃ i, checkExpr T (branch locals c true) t = some i)
    (hf : ∃ i, checkExpr T (branch locals c false) f = some i) (hfits : Fits locals env)
    (henv : env.Ok N) :
    Keeps (contract T N) (Evals locals env c a)
      (evalLast T ω n (branch locals c a) env (if a then t else f)) (Evals locals env e) := by
  obtain ⟨i, hi⟩ : ∃ i, checkExpr T (branch locals c a) (if a then t else f) = some i := by
    cases a
    · exact hf
    · exact ht
  refine Keeps.fix fun σ hs =>
    (ihl σ.store hi (fits_branch hfits hs.2) henv).mono ?_ fun b σ' h' => ?_
  · rintro _ rfl
    exact ⟨rfl, sound_branch hfits hs.2 hs.1⟩
  · exact ⟨hs.1.agree h'.2, htells⟩

theorem checkMatchArms_mem {arms : List MatchArm} {arm : MatchArm}
    (h : checkMatchArms T locals arms = some locals') (ha : arm ∈ arms) :
    ∃ i, checkExpr T (locals.capture T arm.capture) arm.value = some i := by
  induction arms with
  | nil => simp at ha
  | cons a arms ih =>
    have hcons : ∃ i, checkExpr T (locals.capture T a.capture) a.value = some i ∧
        checkMatchArms T locals arms = some locals' := by
      cases a <;> exact Option.bind_eq_some_iff.1 (by rwa [checkMatchArms] at h)
    obtain ⟨i, hi, hrest⟩ := hcons
    rcases List.mem_cons.1 ha with rfl | ha
    · exact ⟨i, hi⟩
    · exact ih hrest ha

theorem eval_match {n : Nat} {key : ExprKey} {operand : Expr} {arms : List MatchArm}
    (ih : EvalSpec T ω n) (h : checkExpr T locals (.matchExpr key operand arms) = some locals')
    (hfits : Fits locals env) (henv : env.Ok N) :
    Keeps (contract T N) (SoundAt locals env)
      (eval T ω (n + 1) locals env (.matchExpr key operand arms))
      (Evals locals' env (.matchExpr key operand arms)) := by
  have htells : ∀ {st v}, Tells env st (.matchExpr key operand arms) v := tells_of_flat rfl rfl rfl
  rw [checkExpr] at h
  obtain ⟨l, h1, h⟩ := Option.bind_eq_some_iff.1 h
  split_ifs at h with hmatch
  obtain ⟨rfl, i, harms⟩ := copied_eq_some h
  have hfits' := (checkExpr_le operand h1).fits hfits
  rw [eval, after_eq h1]
  refine passPoint_spec.bind fun _ => (ih h1 hfits henv).bind fun _ => ?_
  refine ((matchOperand_spec hfits' hmatch).mono (fun _ hs => hs.1) fun _ _ hs => hs).bind
    fun _ => ?_
  refine (choose_spec fun _ h => h).bind fun c => ?_
  split
  · rename_i arm harm
    obtain ⟨j, hj⟩ := checkMatchArms_mem harms (List.mem_of_getElem? harm)
    refine getStore_spec.bind fun before => .of_pre fun hb => ?_
    refine (bindCapture_spec hfits' henv).bind fun inner => ?_
    refine (Keeps.good fun N' _ hf he => ih hj hf he).bind fun v => ?_
    exact (leave_sound hb).bind fun _ => Keeps.pure fun σ _ hs => ⟨hs, htells⟩
  · exact Keeps.pure fun σ _ hs => ⟨hs, htells⟩

theorem eval_assign {n : Nat} {key key' : ExprKey} {value : Expr} (ih : EvalSpec T ω n)
    (h : checkExpr T locals (.assign key (.ident key' x) value) = some locals')
    (hfits : Fits locals env) (henv : env.Ok N) :
    Keeps (contract T N) (SoundAt locals env)
      (eval T ω (n + 1) locals env (.assign key (.ident key' x) value))
      (Evals locals' env (.assign key (.ident key' x) value)) := by
  rw [checkExpr, checkExpr, Option.bind_eq_bind, Option.bind_some] at h
  obtain ⟨l, h2, h⟩ := Option.bind_eq_some_iff.1 h
  obtain rfl := Option.some.inj h
  rw [eval]
  refine passPoint_spec.bind fun _ => (ih h2 hfits henv).bind fun _ => ?_
  refine ((assignLocal_spec henv).mono (fun _ hs => hs.1) fun _ _ hs => hs).bind fun _ => ?_
  refine (choose_spec fun _ h => h).bind fun c => Keeps.pure fun σ _ hs => ⟨hs, ?_⟩
  exact tells_of_flat rfl rfl rfl

theorem eval_step {n : Nat} (ih : EvalSpec T ω n) (ihl : EvalLastSpec T ω n)
    (ihs : EvalsSpec T ω n) : EvalSpec T ω (n + 1) := by
  intro locals locals' env e N h hfits henv
  cases e with
  | ident key x => exact eval_ident h
  | unary key op operand =>
    cases op with
    | logicalNot =>
      rw [checkExpr] at h
      obtain ⟨l, h1, h2⟩ := Option.bind_eq_some_iff.1 h
      obtain rfl := Option.some.inj h2
      rw [eval]
      refine passPoint_spec.bind fun _ => (ih h1 hfits henv).bind fun v => ?_
      exact Keeps.pure fun σ _ hs => ⟨hs.1, tells_not hs.2.test⟩
    | _ => exact eval_plain ihs rfl h hfits henv
  | binary key op lhs rhs =>
    cases op with
    | logicalAnd => exact eval_logicalAnd ih ihl h hfits henv
    | logicalOr => exact eval_logicalOr ih ihl h hfits henv
    | _ => exact eval_plain ihs rfl h hfits henv
  | ternary key c t f =>
    rw [checkExpr] at h
    obtain ⟨hc, ht, hf⟩ := checkBranches_eq h
    rw [eval, after_eq hc]
    refine passPoint_spec.bind fun _ => (ih hc hfits henv).bind fun a => ?_
    exact evalLast_branch ihl (tells_of_flat rfl rfl rfl) ht hf ((checkExpr_le c hc).fits hfits) henv
  | whenExpr key c t f =>
    rw [checkExpr] at h
    obtain ⟨hc, ht, hf⟩ := checkBranches_eq h
    rw [eval, after_eq hc]
    refine passPoint_spec.bind fun _ => (ih hc hfits henv).bind fun a => ?_
    exact evalLast_branch ihl (tells_of_flat rfl rfl rfl) ht hf ((checkExpr_le c hc).fits hfits) henv
  | assign key target value =>
    cases target with
    | ident key' x => exact eval_assign ih h hfits henv
    | _ => exact eval_plain ihs rfl h hfits henv
  | matchExpr key operand arms => exact eval_match ih h hfits henv
  | _ => exact eval_plain ihs rfl h hfits henv

/-- Every accepted expression keeps the invariant, whatever the number of steps. -/
theorem eval_spec (T : Types) (ω : World) (n : Nat) :
    EvalSpec T ω n ∧ EvalLastSpec T ω n ∧ EvalsSpec T ω n := by
  induction n with
  | zero =>
    refine ⟨fun _ _ _ => ?_, fun _ _ _ _ => ?_, fun _ _ _ => ?_⟩
    · rw [eval]
      exact Keeps.stop
    · rw [evalLast]
      exact Keeps.stop
    · rw [evals]
      exact Keeps.stop
  | succ n ih =>
    obtain ⟨ih, ihl, ihs⟩ := ih
    exact ⟨eval_step ih ihl ihs, evalLast_step ih, evals_step ih ihs⟩

/-! ## Statements -/

/-- What a statement establishes where it ends: the next one starts with the variables
    the checker has, and the states it knows are of variables from before. -/
def Ends (exits : Bool) (env : Env) (locals' : LocalScope) (o : Flow) (σ : State) : Prop :=
  ∀ env', o = .normal env' → exits = false ∧ Good locals' env' σ ∧
    ∀ x, (stateIn locals' x).Known → env'.find x = env.find x

variable {s : Stmt} {o : Flow} {σ : State} {n : Nat} {exits exits' : Bool} {inner : LocalScope}
  {before : Store}

theorem ends_normal (hfits : Fits locals env) (henv : env.Ok N) (hexits : exits = false) :
    Keeps (contract T N) (SoundAt locals env) (pure (.normal env)) (Ends exits env locals) := by
  refine Keeps.pure fun σ hI hs env' ho => ?_
  obtain rfl := Flow.normal.inj ho
  exact ⟨hexits, ⟨hfits, henv.mono hI.next, hs⟩, fun _ _ => rfl⟩

theorem ends_exit (h : ∀ env', o ≠ .normal env') :
    Keeps (contract T N) P (pure o) (Ends exits env locals) :=
  Keeps.pure fun _ _ _ env' ho => absurd ho (h env')

theorem leaveFlow_spec (hfits : Fits locals env) (henv : env.Ok N) (hb : Sound locals env before)
    (ho : ∀ env', o = .normal env' → exits = false) :
    Keeps (contract T N) P (leaveFlow env before o) (Ends exits env locals) := by
  cases o with
  | normal env' => exact (leave_sound hb).bind fun _ => ends_normal hfits henv (ho env' rfl)
  | _ => exact ends_exit nofun

/-- A branch ends in the scope around it, with what is known of both branches. -/
theorem Ends.within (h : Ends exits env inner o σ) (hfits : Fits locals env)
    (henv : env.Ok σ.next) (hexits : exits = false → exits' = false ∧
      ∀ x, (stateIn locals x).Known → stateIn inner x = stateIn locals x) :
    Ends exits' env locals (o.within env) σ := by
  intro env' ho
  cases o with
  | normal env1 =>
    obtain rfl := Flow.normal.inj ho
    obtain ⟨hex, hgood, hfind⟩ := h env1 rfl
    obtain ⟨hex', hstate⟩ := hexits hex
    refine ⟨hex', ⟨hfits, henv, sound_of_stateIn fun x => holds_of_known fun hk => ?_⟩,
      fun _ _ => rfl⟩
    have heq := hstate x hk
    rw [← heq] at hk ⊢
    exact (hgood.sound.stateIn x).of_find (hfind x hk).symm
  | _ => cases ho

def ExecSpec (T : Types) (ω : World) (n : Nat) : Prop :=
  ∀ {k : Nesting} {locals locals' : LocalScope} {env : Env} {s : Stmt} {N : Loc},
    checkStmt T k locals s = some locals' → Fits locals env → env.Ok N →
      Keeps (contract T N) (SoundAt locals env) (exec T ω n k locals env s)
        (Ends (stmtAlwaysExits s) env locals')

def ExecsSpec (T : Types) (ω : World) (n : Nat) : Prop :=
  ∀ {k : Nesting} {locals locals' : LocalScope} {env : Env} {stmts : List Stmt} {N : Loc},
    checkStmts T k locals stmts = some locals' → Fits locals env → env.Ok N →
      Keeps (contract T N) (SoundAt locals env) (execs T ω n k locals env stmts)
        fun o _ => ∀ env', o = .normal env' → lastAlwaysExits stmts = false

def ExecForSpec (T : Types) (ω : World) (n : Nat) : Prop :=
  ∀ {k : Nesting} {locals locals' : LocalScope} {env : Env} {index element : Decl} {body : Stmt}
    {N : Loc},
    checkStmt T k.loop ((locals.capture T (some index)).capture T (some element)) body =
      some locals' → Fits locals env → env.Ok N →
      Keeps (contract T N) (SoundAt locals env) (execFor T ω n k locals env index element body)
        (Ends false env locals)

def RunDefersSpec (T : Types) (ω : World) (n : Nat) : Prop :=
  ∀ {ds : List Deferred} {N : Loc} {P : State → Prop}, (∀ d ∈ ds, d.Ok T N) →
    Keeps (contract T N) P (runDefers T ω n ds) fun _ _ => True

theorem runDefers_step (ih : ExecSpec T ω n) (ihd : RunDefersSpec T ω n) :
    RunDefersSpec T ω (n + 1) := by
  intro ds N P h
  cases ds with
  | nil =>
    rw [runDefers]
    exact Keeps.pure fun _ _ _ => trivial
  | cons d ds =>
    obtain ⟨hfits, henv, hsound, locals', hcheck⟩ := h d List.mem_cons_self
    rw [runDefers]
    refine (leave_sound hsound).bind fun _ => (ih hcheck hfits henv).bind fun _ => ?_
    exact ihd fun d' hd' => h d' (List.mem_cons_of_mem _ hd')

theorem execs_step (ih : ExecSpec T ω n) (ihs : ExecsSpec T ω n) : ExecsSpec T ω (n + 1) := by
  intro k locals locals' env stmts N h hfits henv
  cases stmts with
  | nil =>
    rw [execs]
    exact Keeps.pure fun _ _ _ _ _ => rfl
  | cons s stmts =>
    rw [checkStmts] at h
    obtain ⟨l, h1, h2⟩ := Option.bind_eq_some_iff.1 h
    have hafter : afterStmt T k locals s = l := by
      rw [afterStmt, h1]
      rfl
    rw [execs, hafter]
    refine (ih h1 hfits henv).bind fun o => ?_
    split
    · rename_i env1
      refine Keeps.fix fun σ hs => ?_
      obtain ⟨hexits, hgood, -⟩ := hs env1 rfl
      refine (Keeps.good fun N' _ hf he => ihs h2 hf he).mono (fun _ hσ => hσ ▸ hgood)
        fun o σ' ho env' hn => ?_
      cases stmts with
      | nil => exact hexits
      | cons s' stmts => exact ho env' hn
    · rename_i hne
      exact Keeps.pure fun _ _ _ env' ho => absurd ho (hne env')

theorem execFor_step (ih : ExecSpec T ω n) (ihf : ExecForSpec T ω n) : ExecForSpec T ω (n + 1) := by
  intro k locals locals' env index element body N h hfits henv
  rw [execFor]
  refine (choose_spec fun _ h => h).bind fun c => ?_
  split_ifs
  · refine getStore_spec.bind fun before => .of_pre fun hb => ?_
    refine (bindCapture_spec hfits henv).bind fun env1 => ?_
    refine (Keeps.good fun N' _ hf he => bindCapture_spec hf he).bind fun env2 => ?_
    refine (Keeps.good fun N' _ hf he => ih h hf he).bind fun o => ?_
    split
    · exact (leave_sound hb).bind fun _ => ihf h hfits henv
    · exact (leave_sound hb).bind fun _ => ihf h hfits henv
    · exact leaveFlow_spec hfits henv hb fun _ _ => rfl
    · exact ends_exit fun _ h => by cases h
  · exact ends_normal hfits henv rfl

theorem evalCondition_spec {c : Expr} (h : checkExpr T locals c = some locals')
    (hfits : Fits locals env) (henv : env.Ok N) :
    Keeps (contract T N) (SoundAt locals env) (evalCondition T ω n locals env c)
      fun r σ => r.2 = branch locals' c r.1 ∧ Evals locals' env c r.1 σ := by
  rw [evalCondition, after_eq h]
  exact ((eval_spec T ω n).1 h hfits henv).bind fun v => Keeps.pure fun σ _ hs => ⟨rfl, hs⟩

/-- The states that are known after an `if` are known after each branch that ends. -/
theorem exec_branch {c : Expr} (ih : ExecSpec T ω n)
    (hcheck : checkStmt T k (branch locals c v) s = some inner) (hfits : Fits locals env)
    (hfits' : Fits locals' env) (henv : env.Ok N)
    (hexits : stmtAlwaysExits s = false → exits = false ∧
      ∀ x, (stateIn locals' x).Known → stateIn inner x = stateIn locals' x) :
    Keeps (contract T N) (Evals locals env c v)
      (do return (← exec T ω n k (branch locals c v) env s).within env)
      (Ends exits env locals') := by
  refine Keeps.fix fun σ hs => ?_
  have hex := ih hcheck (fits_branch hfits hs.2) henv
  refine (hex.mono (fun σ' hσ => ?_) fun _ _ h => h).bind fun o => ?_
  · exact hσ ▸ sound_branch hfits hs.2 hs.1
  · exact Keeps.pure fun σ' hI ho => ho.within hfits' (henv.mono hI.next) hexits

theorem exec_ifThen {c : Expr} {t : Stmt} (ih : ExecSpec T ω n)
    (h : checkStmt T k locals (.ifThen c t) = some locals') (hfits : Fits locals env)
    (henv : env.Ok N) :
    Keeps (contract T N) (SoundAt locals env) (exec T ω (n + 1) k locals env (.ifThen c t))
      (Ends (stmtAlwaysExits (.ifThen c t)) env locals') := by
  have hfits' : Fits locals' env := fun x => (checkStmt_find _ h x).trans (hfits x)
  rw [checkStmt] at h
  obtain ⟨l, hc, h⟩ := Option.bind_eq_some_iff.1 h
  obtain ⟨i, ht, h⟩ := Option.bind_eq_some_iff.1 h
  have hl := (checkExpr_le c hc).fits hfits
  rw [exec]
  refine passPoint_spec.bind fun _ => getStore_spec.bind fun before => .of_pre fun _ => ?_
  refine (evalCondition_spec hc hfits henv).bind fun ⟨v, m⟩ => .of_pre fun (hm : m = branch l c v) => ?_
  subst hm
  cases v with
  | true =>
    refine exec_branch ih ht hl hfits' henv fun hex => ⟨rfl, fun x hk => ?_⟩
    rw [earlyExit, if_neg (by simp [hex])] at h
    obtain rfl := Option.some.inj h
    exact (merge_known hk).1
  | false =>
    refine (ends_normal hfits' henv rfl).mono (fun σ hs => ?_) fun _ _ h => h
    cases hx : earlyExit l c t with
    | some x =>
      rw [hx] at h
      exact Option.some.inj h ▸ sound_earlyExit hl hs.2 hs.1 hx
    | none =>
      rw [hx] at h
      exact Option.some.inj h ▸ sound_merge_right (sound_branch hl hs.2 hs.1)

theorem exec_ifElse {c : Expr} {t f : Stmt} (ih : ExecSpec T ω n)
    (h : checkStmt T k locals (.ifElse c t f) = some locals') (hfits : Fits locals env)
    (henv : env.Ok N) :
    Keeps (contract T N) (SoundAt locals env) (exec T ω (n + 1) k locals env (.ifElse c t f))
      (Ends (stmtAlwaysExits (.ifElse c t f)) env locals') := by
  have hfits' : Fits locals' env := fun x => (checkStmt_find _ h x).trans (hfits x)
  rw [checkStmt] at h
  obtain ⟨l, hc, h⟩ := Option.bind_eq_some_iff.1 h
  obtain ⟨i, ht, h⟩ := Option.bind_eq_some_iff.1 h
  obtain ⟨j, hf, h⟩ := Option.bind_eq_some_iff.1 h
  obtain rfl := Option.some.inj h
  have hl := (checkExpr_le c hc).fits hfits
  rw [exec]
  refine passPoint_spec.bind fun _ => getStore_spec.bind fun before => .of_pre fun _ => ?_
  refine (evalCondition_spec hc hfits henv).bind fun ⟨v, m⟩ => .of_pre fun (hm : m = branch l c v) => ?_
  subst hm
  cases v with
  | true =>
    refine exec_branch (s := t) ih ht hl hfits' henv fun hex => ⟨by simp [stmtAlwaysExits, hex], ?_⟩
    exact fun x hk => (merge_known hk).1
  | false =>
    refine exec_branch (s := f) ih hf hl hfits' henv fun hex => ⟨by simp [stmtAlwaysExits, hex], ?_⟩
    exact fun x hk => (merge_known hk).2

theorem exec_while {c : Expr} {body : Stmt} (ih : ExecSpec T ω n)
    (h : checkStmt T k locals (.whileStmt c body) = some locals') (hfits : Fits locals env)
    (henv : env.Ok N) :
    Keeps (contract T N) (SoundAt locals env) (exec T ω (n + 1) k locals env (.whileStmt c body))
      (Ends (stmtAlwaysExits (.whileStmt c body)) env locals') := by
  have hfits' : Fits locals' env := fun x => (checkStmt_find _ h x).trans (hfits x)
  have hagain := ih h hfits henv
  rw [checkStmt] at h
  obtain ⟨l, hc, h⟩ := Option.bind_eq_some_iff.1 h
  obtain ⟨i, hbody, h⟩ := Option.bind_eq_some_iff.1 h
  obtain rfl := Option.some.inj h
  have hle := checkExpr_le c hc
  rw [exec]
  refine passPoint_spec.bind fun _ => getStore_spec.bind fun before => .of_pre fun hb => ?_
  refine (evalCondition_spec hc hfits henv).bind fun ⟨v, m⟩ => .of_pre fun (hm : m = branch l c v) => ?_
  subst hm
  cases v with
  | true =>
    refine Keeps.fix fun σ hs => ?_
    have hex := ih hbody (fits_branch (hle.fits hfits) hs.2) henv
    refine (hex.mono (fun σ' hσ => ?_) fun _ _ h => h).bind fun o => ?_
    · exact hσ ▸ sound_branch (hle.fits hfits) hs.2 hs.1
    -- a body that ends or continues is followed by the loop itself
    · cases o with
      | normal _ => exact (leave_sound hb).bind fun _ => hagain
      | continues => exact (leave_sound hb).bind fun _ => hagain
      | breaks =>
        exact leaveFlow_spec hfits' henv (sound_merge_left (hle.sound hb)) fun _ _ => rfl
      | returns => exact ends_exit nofun
  | false =>
    exact (ends_normal hfits' henv rfl).mono (fun σ hs => sound_merge_left hs.1) fun _ _ h => h

theorem checkSwitchArms_mem {arms : List SwitchArm} {arm : SwitchArm}
    (h : checkSwitchArms T k locals arms = some locals') (ha : arm ∈ arms) :
    ∃ i, checkStmt T k (locals.capture T arm.capture) arm.body = some i := by
  induction arms with
  | nil => simp at ha
  | cons a arms ih =>
    have hcons : ∃ i, checkStmt T k (locals.capture T a.capture) a.body = some i ∧
        checkSwitchArms T k locals arms = some locals' := by
      cases a <;> exact Option.bind_eq_some_iff.1 (by rwa [checkSwitchArms] at h)
    obtain ⟨i, hi, hrest⟩ := hcons
    rcases List.mem_cons.1 ha with rfl | ha
    · exact ⟨i, hi⟩
    · exact ih hrest ha

theorem armsAlwaysExit_false {arms : List SwitchArm} {arm : SwitchArm} (ha : arm ∈ arms)
    (h : stmtAlwaysExits arm.body = false) : armsAlwaysExit arms = false := by
  induction arms with
  | nil => simp at ha
  | cons a arms ih =>
    have hcons : armsAlwaysExit (a :: arms) = (stmtAlwaysExits a.body && armsAlwaysExit arms) := by
      cases a <;> rw [armsAlwaysExit] <;> rfl
    rw [hcons]
    rcases List.mem_cons.1 ha with rfl | ha
    · simp [h]
    · simp [ih ha]

theorem exec_switch {operand : Expr} {arms : List SwitchArm} (ih : ExecSpec T ω n)
    (h : checkStmt T k locals (.switchStmt operand arms) = some locals') (hfits : Fits locals env)
    (henv : env.Ok N) :
    Keeps (contract T N) (SoundAt locals env)
      (exec T ω (n + 1) k locals env (.switchStmt operand arms))
      (Ends (stmtAlwaysExits (.switchStmt operand arms)) env locals') := by
  rw [checkStmt] at h
  obtain ⟨l, h1, h⟩ := Option.bind_eq_some_iff.1 h
  split_ifs at h with hmatch
  obtain ⟨rfl, i, harms⟩ := copied_eq_some h
  have hfits' := (checkExpr_le operand h1).fits hfits
  rw [exec]
  dsimp only
  rw [after_eq h1]
  refine passPoint_spec.bind fun _ => getStore_spec.bind fun _ => .of_pre fun _ => ?_
  refine ((eval_spec T ω n).1 h1 hfits henv).bind fun _ => ?_
  refine ((matchOperand_spec hfits' hmatch).mono (fun _ hs => hs.1) fun _ _ hs => hs).bind
    fun _ => ?_
  refine (choose_spec fun _ h => h).bind fun c => ?_
  split
  · rename_i arm harm
    have hmem := List.mem_of_getElem? harm
    obtain ⟨j, hj⟩ := checkSwitchArms_mem harms hmem
    refine getStore_spec.bind fun before => .of_pre fun hb => ?_
    refine (bindCapture_spec hfits' henv).bind fun inner => ?_
    refine (Keeps.good fun N' _ hf he => ih hj hf he).bind fun o => Keeps.fix fun σ hs => ?_
    refine leaveFlow_spec hfits' henv hb fun env' ho => ?_
    rw [stmtAlwaysExits, armsAlwaysExit_false hmem (hs env' ho).1, Bool.and_false]
  · split_ifs with hdefault
    · exact Keeps.stop
    · exact ends_normal hfits' henv (by simp only [stmtAlwaysExits, hdefault, Bool.false_and])

/-- What a declaration establishes. -/
theorem Declared.ends {ds : List Decl} (h : Declared T locals env ds true env' σ) :
    Ends false env (declareAll T locals ds true) (.normal env') σ := by
  rintro _ ⟨⟩
  exact ⟨rfl, h.good, fun x hk => h.find x (known_of_declareAll ds hk).2⟩

theorem stateIn_declareAll (T : Types) (tracked : Bool) {ds : List Decl} (h : ∀ d ∈ ds, d.name ≠ x) :
    stateIn (declareAll T locals ds tracked) x = stateIn locals x := by
  induction ds generalizing locals with
  | nil => rfl
  | cons d ds ih =>
    rw [declareAll, List.foldl_cons, ← declareAll, ih fun d' hd' => h d' (List.mem_cons_of_mem _ hd')]
    simp only [stateIn, declare_ne (Ne.symm (h d List.mem_cons_self))]

theorem exec_defer {body : Stmt} (h : checkStmt T k locals (.deferStmt body) = some locals')
    (hfits : Fits locals env) (henv : env.Ok N) :
    Keeps (contract T N) (SoundAt locals env) (exec T ω (n + 1) k locals env (.deferStmt body))
      (Ends (stmtAlwaysExits (.deferStmt body)) env locals') := by
  rw [checkStmt] at h
  rw [exec]
  refine passPoint_spec.bind fun _ => getStore_spec.bind fun before => .of_pre fun hb => ?_
  refine Keeps.bind (Q := fun _ => SoundAt locals env) (Keeps.modify (fun σ hI _ => ?_)
    fun σ _ hs => hs) fun _ => ?_
  · refine ⟨hI.next, fun d hd => ?_⟩
    rcases List.mem_cons.1 hd with rfl | hd
    · exact ⟨hfits, henv.mono hI.next, hb, locals', h⟩
    · exact hI.defers d hd
  · refine (bindDecls_spec true (declaredBy body) hfits henv).bind fun env1 =>
      Keeps.pure fun σ _ hd => ?_
    rintro _ ⟨⟩
    have hknown := fun x hk => known_of_deferred (x := x) body k.confined_defer h hk
    refine ⟨rfl, ⟨fun x => (checkStmt_find body h x).trans (hd.good.fits x), hd.good.envOk, ?_⟩,
      fun x hk => hd.find x (hknown x hk).2⟩
    refine sound_of_stateIn fun x => holds_of_known fun hk => ?_
    rw [← (hknown x hk).1, ← stateIn_declareAll T true (hknown x hk).2]
    exact hd.good.sound.stateIn x

theorem exec_block {stmts : List Stmt} (ihs : ExecsSpec T ω n) (ihd : RunDefersSpec T ω n)
    (h : checkStmt T k locals (.block stmts) = some locals') (hfits : Fits locals env)
    (henv : env.Ok N) :
    Keeps (contract T N) (SoundAt locals env) (exec T ω (n + 1) k locals env (.block stmts))
      (Ends (stmtAlwaysExits (.block stmts)) env locals') := by
  rw [checkStmt] at h
  obtain ⟨rfl, i, hstmts⟩ := copied_eq_some h
  rw [exec]
  refine passPoint_spec.bind fun _ => getStore_spec.bind fun before => .of_pre fun hb => ?_
  refine Keeps.next fun N1 hN1 => ?_
  have henv1 := henv.mono hN1
  refine (Keeps.get (Q := fun outer σ => (∀ d ∈ outer, d.Ok T N1) ∧ SoundAt locals' env σ)
    fun σ hI hs => ⟨fun d hd => hs.2 ▸ hI.defers d hd, hs.1⟩).bind fun outer =>
      .of_pre fun houter => ?_
  refine Keeps.bind (Q := fun _ => SoundAt locals' env) (Keeps.modify
    (fun σ hI _ => ⟨hI.next, by simp⟩) fun σ _ hs => hs) fun _ => ?_
  refine (ihs hstmts hfits henv1).bind fun o => Keeps.fix fun _ ho => ?_
  refine Keeps.bind (Q := fun defers σ => ∀ d ∈ defers, d.Ok T σ.next)
    (Keeps.get fun σ hI _ => hI.defers) fun defers => ?_
  refine Keeps.bind (Q := fun _ σ => ∀ d ∈ defers, d.Ok T σ.next) (Keeps.modify (fun σ hI _ =>
    ⟨hI.next, fun d hd => (houter d hd).mono hI.next⟩) fun σ _ hs => hs) fun _ => ?_
  refine Keeps.bind (Q := fun _ _ => True) (Keeps.next fun N2 hN2 => Keeps.fix fun σ hs => ?_)
    fun _ => leaveFlow_spec hfits henv1 hb ho
  exact ihd fun d hd => hs.2 ▸ hs.1 d hd

theorem exec_step (ih : ExecSpec T ω n) (ihs : ExecsSpec T ω n) (ihf : ExecForSpec T ω n)
    (ihd : RunDefersSpec T ω n) : ExecSpec T ω (n + 1) := by
  intro k locals locals' env s N h hfits henv
  have heval : EvalSpec T ω n := (eval_spec T ω n).1
  have hevals : EvalsSpec T ω n := (eval_spec T ω n).2.2
  cases s with
  | block stmts => exact exec_block ihs ihd h hfits henv
  | ifThen c t => exact exec_ifThen ih h hfits henv
  | ifElse c t f => exact exec_ifElse ih h hfits henv
  | whileStmt c body => exact exec_while ih h hfits henv
  | forIn index element iterable body =>
    rw [checkStmt] at h
    obtain ⟨l, h1, h⟩ := Option.bind_eq_some_iff.1 h
    obtain ⟨rfl, i, hbody⟩ := copied_eq_some h
    rw [exec]
    refine passPoint_spec.bind fun _ => getStore_spec.bind fun _ => .of_pre fun _ => ?_
    refine (heval h1 hfits henv).bind fun _ => ?_
    rw [after_eq h1]
    exact (ihf hbody ((checkExpr_le iterable h1).fits hfits) henv).mono (fun _ hs => hs.1)
      fun _ _ hs => hs
  | switchStmt operand arms => exact exec_switch ih h hfits henv
  | exprStmt e =>
    rw [checkStmt] at h
    rw [exec]
    refine passPoint_spec.bind fun _ => getStore_spec.bind fun _ => .of_pre fun _ => ?_
    refine (heval h hfits henv).bind fun _ => ?_
    exact (ends_normal ((checkExpr_le e h).fits hfits) henv rfl).mono (fun _ hs => hs.1)
      fun _ _ hs => hs
  | varDecl decl init =>
    rw [checkStmt] at h
    obtain ⟨l, h1, h⟩ := Option.bind_eq_some_iff.1 h
    obtain rfl := Option.some.inj h
    rw [exec]
    refine passPoint_spec.bind fun _ => getStore_spec.bind fun _ => .of_pre fun _ => ?_
    refine (hevals h1 hfits henv).bind fun _ => ?_
    refine (bindDecl_spec true ((checkExprs_le _ h1).fits hfits) henv).bind fun _ => ?_
    exact Keeps.pure fun _ _ hd => hd.ends
  | varDeclGroup decls init =>
    rw [checkStmt] at h
    obtain ⟨l, h1, h⟩ := Option.bind_eq_some_iff.1 h
    obtain rfl := Option.some.inj h
    rw [exec, declareGroup_eq decls init]
    refine passPoint_spec.bind fun _ => getStore_spec.bind fun _ => .of_pre fun _ => ?_
    refine (heval h1 hfits henv).bind fun _ => ?_
    refine ((bindDecls_spec true _ ((checkExpr_le _ h1).fits hfits) henv).mono (fun _ hs => hs.1)
      fun _ _ hs => hs).bind fun _ => ?_
    exact Keeps.pure fun _ _ hd => hd.ends
  | continueStmt =>
    rw [exec]
    refine passPoint_spec.bind fun _ => getStore_spec.bind fun _ => ?_
    exact ends_exit nofun
  | breakStmt =>
    rw [exec]
    refine passPoint_spec.bind fun _ => getStore_spec.bind fun _ => ?_
    exact ends_exit nofun
  | returnStmt values =>
    rw [checkStmt] at h
    split_ifs at h
    rw [exec]
    refine passPoint_spec.bind fun _ => getStore_spec.bind fun _ => .of_pre fun _ => ?_
    exact (hevals h hfits henv).bind fun _ => ends_exit nofun
  | returnOk values =>
    rw [checkStmt] at h
    split_ifs at h
    rw [exec]
    refine passPoint_spec.bind fun _ => getStore_spec.bind fun _ => .of_pre fun _ => ?_
    exact (hevals h hfits henv).bind fun _ => ends_exit nofun
  | returnErr value =>
    rw [checkStmt] at h
    split_ifs at h
    rw [exec]
    refine passPoint_spec.bind fun _ => getStore_spec.bind fun _ => .of_pre fun _ => ?_
    exact (heval h hfits henv).bind fun _ => ends_exit nofun
  | deferStmt body => exact exec_defer h hfits henv
  | whenStmt selected c thenBlock elseBlock =>
    rw [checkStmt] at h
    obtain ⟨l, hc, h⟩ := Option.bind_eq_some_iff.1 h
    obtain ⟨i, ht, h⟩ := Option.bind_eq_some_iff.1 h
    obtain ⟨rfl, j, hf⟩ := copied_eq_some h
    have hle := checkExpr_le c hc
    obtain ⟨m, hm⟩ : ∃ m, checkStmts T k locals' (if selected then thenBlock else elseBlock) =
        some m := by
      cases selected
      · exact ⟨j, hf⟩
      · exact ⟨i, ht⟩
    rw [exec]
    refine passPoint_spec.bind fun _ => getStore_spec.bind fun before => .of_pre fun hb => ?_
    dsimp only
    rw [after_eq hc]
    refine ((ihs hm (hle.fits hfits) henv).mono (fun _ hs => hle.sound hs) fun _ _ h => h).bind
      fun o => ?_
    exact leaveFlow_spec (hle.fits hfits) henv (hle.sound hb) fun _ _ => rfl
  | asmStmt names =>
    rw [checkStmt] at h
    obtain rfl := Option.some.inj h
    rw [exec]
    refine passPoint_spec.bind fun _ => getStore_spec.bind fun _ => .of_pre fun _ => ?_
    exact effect_spec.bind fun _ => ends_normal hfits henv rfl

/-- Every accepted statement keeps the invariant, whatever the number of steps. -/
theorem exec_spec (T : Types) (ω : World) (n : Nat) :
    ExecSpec T ω n ∧ ExecsSpec T ω n ∧ ExecForSpec T ω n ∧ RunDefersSpec T ω n := by
  induction n with
  | zero =>
    refine ⟨fun _ _ _ => ?_, fun _ _ _ => ?_, fun _ _ _ => ?_, fun _ => ?_⟩
    · rw [exec]
      exact Keeps.stop
    · rw [execs]
      exact Keeps.stop
    · rw [execFor]
      exact Keeps.stop
    · rw [runDefers]
      exact Keeps.stop
  | succ n ih =>
    obtain ⟨ih, ihs, ihf, ihd⟩ := ih
    exact ⟨exec_step ih ihs ihf ihd, execs_step ih ihs, execFor_step ih ihf,
      runDefers_step ih ihd⟩

/-- `mut e := f()`, `if !e { return }`, the given statement, `switch e { else {} }`. -/
def switchAfter (s : Stmt) : Stmt :=
  .block [.varDecl ⟨0, "e"⟩ (some (.call 0 (.ident 1 "f") [])),
    .ifThen (.unary 2 .logicalNot (.ident 3 "e")) (.block [.returnStmt []]),
    s,
    .switchStmt (.ident 4 "e") [.default (.block [])]]

/-- `{ e = g() }` -/
def assignInBlock : Stmt :=
  .block [.exprStmt (.assign 5 (.ident 6 "e") (.call 7 (.ident 8 "g") []))]

/-- The error local is the variable `0`. -/
def oneError : Types := ⟨fun _ => false, fun d => d == 0⟩

/-- The first error is an error, later ones are not. -/
def failsOnce : World := fun t => { bit := t < 4 }

end Mirage.Typestate
