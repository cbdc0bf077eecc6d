import Mathlib.Tactic.Common
import Mirage.Lang.ErrorRun

/-!
# What narrowing knows

The facts about the checker that soundness rests on, none of them about runs of
statements:

* a scope is *sound* for a store when every state it knows is the one in the store
  (`Sound`);
* checking an expression only forgets (`checkExpr_le`), and so does checking a deferred
  statement, which cannot leave the `defer` (`known_of_deferred`);
* the branches of a condition are sound when the condition told the truth (`Tells`,
  `sound_branch`), and so is what two branches agree on (`sound_merge`).
-/

namespace Mirage.Typestate

open Ast

variable {T : Types} {locals locals' a b : LocalScope} {env : Env} {st st' : Store} {x : Name}
  {e : Expr} {v : Bool}

/-! ## Sound scopes -/

/-- The local is in the given state. -/
structure Holds (env : Env) (st : Store) (x : Name) (s : ErrorState) : Prop where
  failed : s = .failed → ∃ l, env.find x = some l ∧ st l = true
  ok : s = .ok → ∃ l, env.find x = some l ∧ st l = false

/-- Every state the scope knows is the one of the local. -/
def Sound (locals : LocalScope) (env : Env) (st : Store) : Prop :=
  ∀ x b, locals x = some b → Holds env st x b.errState

/-- The error locals of the scope are the ones that have a location. -/
def Fits (locals : LocalScope) (env : Env) : Prop :=
  ∀ x, findErrorLocal locals x = (env.find x).isSome

/-- The stores agree on the locals in scope. -/
def Agree (env : Env) (st st' : Store) : Prop := ∀ x l, env.find x = some l → st' l = st l

theorem Agree.refl (env : Env) (st : Store) : Agree env st st := fun _ _ _ => rfl

theorem Agree.trans {st'' : Store} (h : Agree env st st') (h' : Agree env st' st'') :
    Agree env st st'' := fun x l hx => (h' x l hx).trans (h x l hx)

theorem lookup_ne_none {env : Env} {x : Name} {l : Loc} (h : env.find x = some l) :
    ∃ p ∈ env, p.1 = x := by
  by_contra hne
  push Not at hne
  have : env.lookup x = none := List.lookup_eq_none_iff.2 fun p hp => by
    simpa using fun heq => hne p hp heq.symm
  simp [Env.find, this] at h

/-- A part that leaves the locals settled agrees on them. -/
theorem agree_of_settled (h : settled env st st' = true) : Agree env st st' := by
  intro x l hx
  obtain ⟨p, hp, rfl⟩ := lookup_ne_none hx
  have := List.all_eq_true.1 h p hp
  simp only [hx, beq_iff_eq] at this
  exact this.symm

theorem Holds.unknown {s : ErrorState} (hf : s ≠ .failed) (ho : s ≠ .ok) : Holds env st x s :=
  ⟨fun h => absurd h hf, fun h => absurd h ho⟩

theorem Holds.agree {s : ErrorState} (h : Holds env st x s) (ha : Agree env st st') :
    Holds env st' x s := by
  refine ⟨fun hs => ?_, fun hs => ?_⟩
  · obtain ⟨l, hl, hst⟩ := h.failed hs
    exact ⟨l, hl, (ha x l hl).trans hst⟩
  · obtain ⟨l, hl, hst⟩ := h.ok hs
    exact ⟨l, hl, (ha x l hl).trans hst⟩

theorem Holds.of_find {env' : Env} {s : ErrorState} (h : Holds env st x s)
    (heq : env'.find x = env.find x) : Holds env' st x s := by
  refine ⟨fun hs => ?_, fun hs => ?_⟩
  · rw [heq]
    exact h.failed hs
  · rw [heq]
    exact h.ok hs

theorem Sound.agree (h : Sound locals env st) (ha : Agree env st st') : Sound locals env st' :=
  fun x b hx => (h x b hx).agree ha

theorem Sound.stateIn (h : Sound locals env st) (x : Name) :
    Holds env st x (stateIn locals x) := by
  rw [Typestate.stateIn]
  split
  · exact h x _ ‹_›
  · exact .unknown (by simp) (by simp)

/-! ## Scopes that know less -/

/-- The state says something. -/
def ErrorState.Known (s : ErrorState) : Prop := s = .failed ∨ s = .ok

/-- The same locals, with no state that is not known in the other scope too. -/
structure Le (a b : LocalScope) : Prop where
  shape : ∀ x, (a x).map LocalBinding.isError = (b x).map LocalBinding.isError
  state : ∀ x, (stateIn a x).Known → stateIn b x = stateIn a x

theorem Le.refl (a : LocalScope) : Le a a := ⟨fun _ => rfl, fun _ _ => rfl⟩

theorem Le.trans {c : LocalScope} (h : Le a b) (h' : Le b c) : Le a c where
  shape := fun x => (h.shape x).trans (h'.shape x)
  state := fun x hx => by
    have := h.state x hx
    rw [← this] at hx ⊢
    exact h'.state x hx

theorem findErrorLocal_eq (locals : LocalScope) (x : Name) :
    findErrorLocal locals x = ((locals x).map LocalBinding.isError).getD false := by
  rw [findErrorLocal]
  split <;> simp [*]

theorem Le.find (h : Le a b) (x : Name) : findErrorLocal a x = findErrorLocal b x := by
  rw [findErrorLocal_eq, findErrorLocal_eq, h.shape]

theorem Le.fits (h : Le a b) (hb : Fits b env) : Fits a env := fun x => (h.find x).trans (hb x)

theorem holds_of_known {s : ErrorState} (h : s.Known → Holds env st x s) : Holds env st x s :=
  ⟨fun hs => (h (.inl hs)).failed hs, fun hs => (h (.inr hs)).ok hs⟩

theorem sound_of_stateIn (h : ∀ x, Holds env st x (stateIn locals x)) : Sound locals env st := by
  intro x b hx
  have := h x
  rwa [stateIn, hx] at this

theorem Le.sound (h : Le a b) (hb : Sound b env st) : Sound a env st :=
  sound_of_stateIn fun x => holds_of_known fun hk => h.state x hk ▸ hb.stateIn x

theorem setState_shape (locals : LocalScope) (x : Name) (s : ErrorState) (y : Name) :
    (locals.setState x s y).map LocalBinding.isError = (locals y).map LocalBinding.isError := by
  rw [LocalScope.setState]
  split_ifs
  · cases locals y <;> rfl
  · rfl

theorem stateIn_setState_ne {s : ErrorState} {y : Name} (h : y ≠ x) :
    stateIn (locals.setState x s) y = stateIn locals y := by
  simp [stateIn, LocalScope.setState, h]

theorem stateIn_setState_self {s : ErrorState} :
    stateIn (locals.setState x s) x = if (locals x).isSome then s else .unknown := by
  simp only [stateIn, LocalScope.setState, if_true]
  cases locals x <;> rfl

theorem le_invalidate (locals : LocalScope) (x : Name) : Le (locals.invalidate x) locals := by
  rw [LocalScope.invalidate]
  split
  · split_ifs
    · refine ⟨setState_shape _ _ _, fun y hy => ?_⟩
      by_cases hxy : y = x
      · rw [hxy, stateIn_setState_self] at hy
        split_ifs at hy <;> rcases hy with h | h <;> simp at h
      · rw [stateIn_setState_ne hxy]
    · exact .refl _
  · exact .refl _

theorem copied_eq_some {r : Option LocalScope} (h : copied locals r = some locals') :
    locals' = locals ∧ ∃ inner, r = some inner := by
  obtain ⟨inner, hr, rfl⟩ := Option.map_eq_some_iff.1 h
  exact ⟨rfl, inner, hr⟩

/-- Checking a branching expression gives the scope after its condition. -/
theorem checkBranches_eq {c t f : Expr}
    (h : (do
      let locals ← checkExpr T locals c
      let _ ← checkExpr T (branch locals c true) t
      copied locals (checkExpr T (branch locals c false) f)) = some locals') :
    checkExpr T locals c = some locals' ∧ (∃ i, checkExpr T (branch locals' c true) t = some i) ∧
      ∃ i, checkExpr T (branch locals' c false) f = some i := by
  obtain ⟨l, hc, h⟩ := Option.bind_eq_some_iff.1 h
  obtain ⟨i, ht, h⟩ := Option.bind_eq_some_iff.1 h
  obtain ⟨rfl, hf⟩ := copied_eq_some h
  exact ⟨hc, ⟨i, ht⟩, hf⟩

mutual

/-- Checking an expression only forgets. -/
theorem checkExpr_le : ∀ (e : Expr) {locals locals' : LocalScope},
    checkExpr T locals e = some locals' → Le locals' locals
  | .literalInteger .., _, _, h | .literalString .., _, _, h | .literalChar .., _, _, h
  | .literalBool .., _, _, h | .leaf .., _, _, h | .ident .., _, _, h | .dotIdent .., _, _, h
  | .importExpr .., _, _, h | .bitsetExpr .., _, _, h => by
    rw [checkExpr] at h
    exact Option.some.inj h ▸ .refl _
  | .unary _ op operand, _, _, h => by
    rw [checkExpr] at h
    obtain ⟨l, h1, h2⟩ := Option.bind_eq_some_iff.1 h
    have hle := checkExpr_le operand h1
    split at h2
    · exact Option.some.inj h2 ▸ (le_invalidate _ _).trans hle
    · exact Option.some.inj h2 ▸ hle
  | .binary _ _ lhs rhs, _, _, h => by
    rw [checkExpr] at h
    obtain ⟨l, h1, h2⟩ := Option.bind_eq_some_iff.1 h
    exact (checkExpr_le rhs h2).trans (checkExpr_le lhs h1)
  | .ternary _ c t f, _, _, h | .whenExpr _ c t f, _, _, h => by
    rw [checkExpr] at h
    exact checkExpr_le c (checkBranches_eq h).1
  | .assign _ target value, _, _, h => by
    rw [checkExpr] at h
    obtain ⟨l, h1, h⟩ := Option.bind_eq_some_iff.1 h
    obtain ⟨l', h2, h⟩ := Option.bind_eq_some_iff.1 h
    have hle := (checkExpr_le value h2).trans (checkExpr_le target h1)
    split at h
    · exact Option.some.inj h ▸ (le_invalidate _ _).trans hle
    · exact Option.some.inj h ▸ hle
  | .call _ callee args, _, _, h => by
    rw [checkExpr] at h
    obtain ⟨l, h1, h2⟩ := Option.bind_eq_some_iff.1 h
    exact (checkExprs_le args h2).trans (checkExpr_le callee h1)
  | .sizeOf _ e, _, _, h | .alignOf _ e, _, _, h | .typeOf _ e, _, _, h | .cast _ e, _, _, h
  | .member _ e _, _, _, h => by
    rw [checkExpr] at h
    exact checkExpr_le e h
  | .option _ _ d, _, _, h => by
    rw [checkExpr] at h
    exact (copied_eq_some h).1 ▸ .refl _
  | .structExpr _ _ es, _, _, h | .arrayExpr _ es, _, _, h | .compound _ _ es, _, _, h => by
    rw [checkExpr] at h
    exact checkExprs_le es h
  | .matchExpr _ operand arms, _, _, h => by
    rw [checkExpr] at h
    obtain ⟨l, h1, h2⟩ := Option.bind_eq_some_iff.1 h
    split_ifs at h2
    exact (copied_eq_some h2).1 ▸ checkExpr_le operand h1

theorem checkExprs_le : ∀ (es : List Expr) {locals locals' : LocalScope},
    checkExprs T locals es = some locals' → Le locals' locals
  | [], _, _, h => by
    rw [checkExprs] at h
    exact Option.some.inj h ▸ .refl _
  | e :: es, _, _, h => by
    rw [checkExprs] at h
    obtain ⟨l, h1, h2⟩ := Option.bind_eq_some_iff.1 h
    exact (checkExprs_le es h2).trans (checkExpr_le e h1)

end

/-! ## Conditions -/

/-- `err` or `!err`, whatever the scope. -/
def operandOf : Expr → Option (Name × Bool)
  | .ident _ x => some (x, false)
  | .unary _ .logicalNot (.ident _ x) => some (x, true)
  | _ => none

theorem matchErrorOperand_eq_some {negated : Bool} :
    matchErrorOperand locals e = some (x, negated) ↔
      operandOf e = some (x, negated) ∧ findErrorLocal locals x = true := by
  unfold matchErrorOperand operandOf
  split
  · split_ifs with h <;> simp only [Option.some.injEq, Prod.mk.injEq, false_iff]
    · exact ⟨fun h' => ⟨h', h'.1 ▸ h⟩, fun h' => h'.1⟩
    · rintro ⟨⟨rfl, -⟩, h'⟩
      exact h h'
  · split_ifs with h <;> simp only [Option.some.injEq, Prod.mk.injEq, false_iff]
    · exact ⟨fun h' => ⟨h', h'.1 ▸ h⟩, fun h' => h'.1⟩
    · rintro ⟨⟨rfl, -⟩, h'⟩
      exact h h'
  · simp

/-- If the expression is a test of a local, then with this value. -/
def Says (env : Env) (st : Store) (e : Expr) (v : Bool) : Prop :=
  ∀ x negated l, operandOf e = some (x, negated) → env.find x = some l → st l = (v ^^ negated)

/-- What the value of a condition says of the locals it tests. -/
structure Tells (env : Env) (st : Store) (e : Expr) (v : Bool) : Prop where
  test : Says env st e v
  and : v = true → ∀ o ∈ flattenLogicalChain .logicalAnd e, Says env st o true
  or : v = false → ∀ o ∈ flattenLogicalChain .logicalOr e, Says env st o false

theorem Says.agree (h : Says env st e v) (ha : Agree env st st') : Says env st' e v :=
  fun x neg l ho hl => (ha x l hl).trans (h x neg l ho hl)

theorem Tells.agree (h : Tells env st e v) (ha : Agree env st st') : Tells env st' e v :=
  ⟨h.test.agree ha, fun hv o ho => (h.and hv o ho).agree ha, fun hv o ho => (h.or hv o ho).agree ha⟩

/-- A test of a local in scope holds in the store. -/
theorem Says.holds {negated : Bool} (h : Says env st e v) (hf : Fits locals env)
    (hm : matchErrorOperand locals e = some (x, negated)) :
    Holds env st x (if v ^^ negated then .failed else .ok) := by
  obtain ⟨ho, hx⟩ := matchErrorOperand_eq_some.1 hm
  rw [hf x, Option.isSome_iff_exists] at hx
  obtain ⟨l, hl⟩ := hx
  have := h x negated l ho hl
  refine ⟨fun hs => ⟨l, hl, ?_⟩, fun hs => ⟨l, hl, ?_⟩⟩ <;> split_ifs at hs with hv
  · rw [this, hv]
  · simpa [this] using hv

/-- The states of a branch, of an entry that holds there. -/
def ConditionNarrowing.Right (env : Env) (st : Store) (thenBranch : Bool) (n : ConditionNarrowing) :
    Prop := Holds env st n.varName (n.state thenBranch)

/-- What the entries of a chain have in common. -/
theorem narrowAnd_forall {P : ConditionNarrowing → Prop} {result : List ConditionNarrowing}
    (h : ∀ n ∈ result, P n) (hforget : ∀ n, P n → P { n with thenState := .unknown })
    (hnew : ∀ x negated, matchErrorOperand locals e = some (x, negated) →
      P ⟨x, if negated then .ok else .failed, .unknown, false, false⟩) :
    ∀ n ∈ narrowAnd locals result e, P n := by
  rw [narrowAnd]
  split
  · exact h
  · rename_i x negated hm
    have hx := hnew x negated hm
    dsimp only
    generalize (if negated then _ else _ : ErrorState) = state at hx ⊢
    split_ifs
    · intro n hn
      obtain ⟨n', hn', rfl⟩ := List.mem_map.1 hn
      split_ifs
      · exact hforget n' (h n' hn')
      · exact h n' hn'
    · intro n hn
      rcases List.mem_append.1 hn with hn | hn
      · exact h n hn
      · rw [List.mem_singleton.1 hn]
        exact hx

theorem narrowOr_forall {P : ConditionNarrowing → Prop} {result : List ConditionNarrowing}
    (h : ∀ n ∈ result, P n) (hforget : ∀ n, P n → P { n with elseState := .unknown })
    (hnew : ∀ x negated, matchErrorOperand locals e = some (x, negated) →
      P ⟨x, .unknown, if negated then .failed else .ok, false, false⟩) :
    ∀ n ∈ narrowOr locals result e, P n := by
  rw [narrowOr]
  split
  · exact h
  · rename_i x negated hm
    have hx := hnew x negated hm
    dsimp only
    generalize (if negated then _ else _ : ErrorState) = state at hx ⊢
    split_ifs
    · intro n hn
      obtain ⟨n', hn', rfl⟩ := List.mem_map.1 hn
      split_ifs
      · exact hforget n' (h n' hn')
      · exact h n' hn'
    · intro n hn
      rcases List.mem_append.1 hn with hn | hn
      · exact h n hn
      · rw [List.mem_singleton.1 hn]
        exact hx

theorem narrowAnd_right {result : List ConditionNarrowing} (hf : Fits locals env)
    (h : ∀ n ∈ result, n.Right env st true) (ho : Says env st e true) :
    ∀ n ∈ narrowAnd locals result e, n.Right env st true := by
  refine narrowAnd_forall h (fun n _ => .unknown (by simp [ConditionNarrowing.state])
    (by simp [ConditionNarrowing.state])) fun x negated hm => ?_
  have := ho.holds hf hm
  cases negated <;> simpa [ConditionNarrowing.Right, ConditionNarrowing.state] using this

theorem narrowOr_right {result : List ConditionNarrowing} (hf : Fits locals env)
    (h : ∀ n ∈ result, n.Right env st false) (ho : Says env st e false) :
    ∀ n ∈ narrowOr locals result e, n.Right env st false := by
  refine narrowOr_forall h (fun n _ => .unknown (by simp [ConditionNarrowing.state])
    (by simp [ConditionNarrowing.state])) fun x negated hm => ?_
  have := ho.holds hf hm
  cases negated <;> simpa [ConditionNarrowing.Right, ConditionNarrowing.state] using this

theorem foldl_right {α : Type} {f : List ConditionNarrowing → α → List ConditionNarrowing}
    {P : ConditionNarrowing → Prop} {l : List α}
    (hf : ∀ a ∈ l, ∀ result, (∀ n ∈ result, P n) → ∀ n ∈ f result a, P n)
    {init : List ConditionNarrowing} (h : ∀ n ∈ init, P n) : ∀ n ∈ l.foldl f init, P n := by
  induction l generalizing init with
  | nil => exact h
  | cons a l ih =>
    exact ih (fun a' ha' => hf a' (List.mem_cons_of_mem _ ha')) (hf a List.mem_cons_self init h)

theorem right_of_unknown {result : List ConditionNarrowing} {thenBranch : Bool}
    (h : ∀ n ∈ result, n.state thenBranch = .unknown) :
    ∀ n ∈ result, n.Right env st thenBranch := fun n hn => by
  rw [ConditionNarrowing.Right, h n hn]
  exact .unknown (by simp) (by simp)

/-- The else-states of an `&&` chain and the then-states of an `||` chain say nothing. -/
theorem narrowAnd_else {result : List ConditionNarrowing}
    (h : ∀ n ∈ result, n.state false = .unknown) :
    ∀ n ∈ narrowAnd locals result e, n.state false = .unknown :=
  narrowAnd_forall h (fun _ hn => hn) fun _ _ _ => rfl

theorem narrowOr_then {result : List ConditionNarrowing}
    (h : ∀ n ∈ result, n.state true = .unknown) :
    ∀ n ∈ narrowOr locals result e, n.state true = .unknown :=
  narrowOr_forall h (fun _ hn => hn) fun _ _ _ => rfl

/-- A condition is a test of one local, a chain, or says nothing. -/
theorem computeConditionNarrowing_cases (locals : LocalScope) (e : Expr) :
    (∃ x, matchErrorOperand locals e = some (x, true) ∧
      computeConditionNarrowing locals e = [⟨x, .ok, .failed, false, true⟩]) ∨
    (∃ x, matchErrorOperand locals e = some (x, false) ∧
      computeConditionNarrowing locals e = [⟨x, .failed, .ok, true, false⟩]) ∨
    computeConditionNarrowing locals e =
      (flattenLogicalChain .logicalAnd e).foldl (narrowAnd locals) [] ∨
    computeConditionNarrowing locals e =
      (flattenLogicalChain .logicalOr e).foldl (narrowOr locals) [] ∨
    computeConditionNarrowing locals e = [] := by
  unfold computeConditionNarrowing
  split
  · exact .inl ⟨_, ‹_›, rfl⟩
  · exact .inr (.inl ⟨_, ‹_›, rfl⟩)
  · split
    · exact .inr (.inr (.inl rfl))
    · exact .inr (.inr (.inr (.inl rfl)))
    · exact .inr (.inr (.inr (.inr rfl)))

/-- A condition that told the truth narrows to what is the case. -/
theorem narrowing_right (hf : Fits locals env) (h : Tells env st e v) :
    ∀ n ∈ computeConditionNarrowing locals e, n.Right env st v := by
  rcases computeConditionNarrowing_cases locals e with ⟨x, hm, hc⟩ | ⟨x, hm, hc⟩ | hc | hc | hc <;>
    rw [hc]
  · have := h.test.holds hf hm
    simp only [List.mem_singleton, forall_eq]
    cases v <;> simpa [ConditionNarrowing.Right, ConditionNarrowing.state] using this
  · have := h.test.holds hf hm
    simp only [List.mem_singleton, forall_eq]
    cases v <;> simpa [ConditionNarrowing.Right, ConditionNarrowing.state] using this
  · cases v with
    | true => exact foldl_right (fun o ho _ hr => narrowAnd_right hf hr (h.and rfl o ho)) (by simp)
    | false => exact right_of_unknown (foldl_right (fun _ _ _ => narrowAnd_else) (by simp))
  · cases v with
    | false => exact foldl_right (fun o ho _ hr => narrowOr_right hf hr (h.or rfl o ho)) (by simp)
    | true => exact right_of_unknown (foldl_right (fun _ _ _ => narrowOr_then) (by simp))
  · simp

/-- Only `!err` gives an entry that is exactly `!err`. -/
theorem narrowAnd_notExact {result : List ConditionNarrowing}
    (h : ∀ n ∈ result, n.isExactNotErr = false) :
    ∀ n ∈ narrowAnd locals result e, n.isExactNotErr = false :=
  narrowAnd_forall h (fun _ hn => hn) fun _ _ _ => rfl

theorem narrowOr_notExact {result : List ConditionNarrowing}
    (h : ∀ n ∈ result, n.isExactNotErr = false) :
    ∀ n ∈ narrowOr locals result e, n.isExactNotErr = false :=
  narrowOr_forall h (fun _ hn => hn) fun _ _ _ => rfl

theorem elseState_of_exact {n : ConditionNarrowing} (hn : n ∈ computeConditionNarrowing locals e)
    (hexact : n.isExactNotErr = true) : n.elseState = .failed := by
  have hno : ¬ n.isExactNotErr = false := by simp [hexact]
  rcases computeConditionNarrowing_cases locals e with ⟨x, _, hc⟩ | ⟨x, _, hc⟩ | hc | hc | hc <;>
    rw [hc] at hn
  · rw [List.mem_singleton.1 hn]
  · rw [List.mem_singleton.1 hn] at hexact
    cases hexact
  · exact absurd (foldl_right (fun _ _ _ => narrowAnd_notExact) (by simp) n hn) hno
  · exact absurd (foldl_right (fun _ _ _ => narrowOr_notExact) (by simp) n hn) hno
  · simp at hn

/-! ## Branches -/

theorem Sound.setState {s : ErrorState} (h : Sound locals env st) (hx : Holds env st x s) :
    Sound (locals.setState x s) env st := by
  refine sound_of_stateIn fun y => ?_
  by_cases hy : y = x
  · rw [hy, stateIn_setState_self]
    split_ifs
    · exact hx
    · exact .unknown (by simp) (by simp)
  · rw [stateIn_setState_ne hy]
    exact h.stateIn y

theorem find_setState {s : ErrorState} (y : Name) :
    findErrorLocal (locals.setState x s) y = findErrorLocal locals y := by
  rw [findErrorLocal_eq, findErrorLocal_eq, setState_shape]

/-- Narrowing keeps the locals and establishes the states it gives them. -/
theorem applyConditionNarrowing_spec {narrowings : List ConditionNarrowing}
    (h : ∀ n ∈ narrowings, n.Right env st v) :
    (∀ y, findErrorLocal (applyConditionNarrowing locals narrowings v) y =
      findErrorLocal locals y) ∧
    (Sound locals env st → Sound (applyConditionNarrowing locals narrowings v) env st) := by
  rw [applyConditionNarrowing]
  induction narrowings generalizing locals with
  | nil => exact ⟨fun _ => rfl, id⟩
  | cons n ns ih =>
    have hns := fun n' hn' => h n' (List.mem_cons_of_mem n hn')
    rw [List.foldl_cons]
    split_ifs with hx
    · obtain ⟨h1, h2⟩ := @ih (locals.setState n.varName (n.state v)) hns
      exact ⟨fun y => (h1 y).trans (find_setState y),
        fun hs => h2 (hs.setState (h n List.mem_cons_self))⟩
    · exact ih hns

theorem fits_branch (hf : Fits locals env) (h : Tells env st e v) :
    Fits (branch locals e v) env := fun y =>
  ((applyConditionNarrowing_spec (narrowing_right hf h)).1 y).trans (hf y)

theorem sound_branch (hf : Fits locals env) (h : Tells env st e v) (hs : Sound locals env st) :
    Sound (branch locals e v) env st :=
  (applyConditionNarrowing_spec (narrowing_right hf h)).2 hs

/-- After `!err` did not hold, and its branch is never left, the local has failed. -/
theorem sound_earlyExit {thenStmt : Stmt} (hf : Fits locals env) (h : Tells env st e false)
    (hs : Sound locals env st) (hx : earlyExit locals e thenStmt = some x) :
    Sound (locals.setState x .failed) env st := by
  rw [earlyExit] at hx
  split_ifs at hx
  obtain ⟨n, hn, rfl⟩ := Option.map_eq_some_iff.1 hx
  have hright := narrowing_right hf h n (List.mem_of_find?_eq_some hn)
  have hstate := elseState_of_exact (List.mem_of_find?_eq_some hn) (List.find?_some hn)
  refine hs.setState ?_
  rw [ConditionNarrowing.Right, ConditionNarrowing.state] at hright
  simpa [hstate] using hright

/-! ## Merges and declarations -/

theorem merge_find (target a b : LocalScope) (x : Name) :
    findErrorLocal (mergeErrorStates target a b) x = findErrorLocal target x := by
  rw [findErrorLocal_eq, findErrorLocal_eq, mergeErrorStates, Option.map_map]
  cases target x with
  | none => rfl
  | some t =>
    simp only [Option.map_some, Function.comp_apply]
    split_ifs <;> rfl

/-- A merge knows what both branches agree on. -/
theorem merge_known {target : LocalScope}
    (h : (stateIn (mergeErrorStates target a b) x).Known) :
    stateIn a x = stateIn (mergeErrorStates target a b) x ∧
      stateIn b x = stateIn (mergeErrorStates target a b) x := by
  rw [stateIn.eq_def (mergeErrorStates target a b), mergeErrorStates] at h ⊢
  cases htx : target x with
  | none => simp [htx, ErrorState.Known] at h
  | some t =>
    simp only [htx, Option.map_some] at h ⊢
    split_ifs at h ⊢ with h1 h2
    · simp [h1, ErrorState.Known] at h
    · exact ⟨rfl, h2.symm⟩
    · simp [ErrorState.Known] at h

theorem sound_merge_left {target : LocalScope} (h : Sound a env st) :
    Sound (mergeErrorStates target a b) env st :=
  sound_of_stateIn fun x => holds_of_known fun hk => (merge_known hk).1 ▸ h.stateIn x

theorem sound_merge_right {target : LocalScope} (h : Sound b env st) :
    Sound (mergeErrorStates target a b) env st :=
  sound_of_stateIn fun x => holds_of_known fun hk => (merge_known hk).2 ▸ h.stateIn x

theorem stateIn_declare {d : Decl} {tracked : Bool} :
    ¬ (stateIn (locals.declare T d tracked) d.name).Known := by
  simp only [stateIn, LocalScope.declare, LocalScope.set, if_true, ErrorState.Known]
  split_ifs <;> simp

theorem declare_ne {d : Decl} {tracked : Bool} (h : x ≠ d.name) :
    locals.declare T d tracked x = locals x := by
  simp [LocalScope.declare, LocalScope.set, h]

/-- Several declarations, one after the other. -/
def declareAll (T : Types) (locals : LocalScope) (ds : List Decl) (tracked : Bool) : LocalScope :=
  ds.foldl (fun locals d => locals.declare T d tracked) locals

theorem declareGroup_eq (decls : List Decl) (init : Expr) :
    declareGroup T locals decls =
      declareAll T locals (declaredBy (.varDeclGroup decls init)) true := by
  rw [declareGroup, declareAll, declaredBy, List.foldl_filter]
  simp

/-- What is known after declarations was known before, of other names. -/
theorem known_of_declareAll (ds : List Decl) {tracked : Bool}
    (h : (stateIn (declareAll T locals ds tracked) x).Known) :
    stateIn locals x = stateIn (declareAll T locals ds tracked) x ∧ ∀ d ∈ ds, d.name ≠ x := by
  induction ds generalizing locals with
  | nil => exact ⟨rfl, by simp⟩
  | cons d ds ih =>
    obtain ⟨heq, hne⟩ := @ih (locals.declare T d tracked) h
    rw [declareAll, List.foldl_cons, ← declareAll] at h ⊢
    rw [← heq] at h ⊢
    have hx : x ≠ d.name := fun hx => stateIn_declare (hx ▸ h)
    refine ⟨?_, ?_⟩
    · simp only [stateIn, declare_ne hx]
    · simpa using ⟨hx.symm, hne⟩

theorem find_declareAll_congr (ds : List Decl) {tracked : Bool}
    (h : ∀ x, findErrorLocal a x = findErrorLocal b x) :
    ∀ x, findErrorLocal (declareAll T a ds tracked) x =
      findErrorLocal (declareAll T b ds tracked) x := by
  induction ds generalizing a b with
  | nil => exact h
  | cons d ds ih =>
    refine ih fun x => ?_
    by_cases hx : x = d.name
    · simp [findErrorLocal, LocalScope.declare, LocalScope.set, hx]
    · simpa [findErrorLocal, declare_ne hx] using h x

/-! ## Statements -/

/-- A statement adds the variables it declares and no others. -/
theorem checkStmt_find : ∀ (s : Stmt) {n : Nesting} {locals locals' : LocalScope},
    checkStmt T n locals s = some locals' →
      ∀ x, findErrorLocal locals' x = findErrorLocal (declareAll T locals (declaredBy s) true) x
  | .block stmts, _, _, _, h, _ => by
    rw [checkStmt] at h
    rw [(copied_eq_some h).1]
    rfl
  | .ifThen c t, _, _, _, h, x => by
    rw [checkStmt] at h
    obtain ⟨l, hc, h⟩ := Option.bind_eq_some_iff.1 h
    obtain ⟨i, ht, h⟩ := Option.bind_eq_some_iff.1 h
    have hle := checkExpr_le c hc
    split at h
    · rw [← Option.some.inj h, find_setState]
      exact hle.find x
    · rw [← Option.some.inj h, merge_find]
      exact hle.find x
  | .ifElse c t f, _, _, _, h, x => by
    rw [checkStmt] at h
    obtain ⟨l, hc, h⟩ := Option.bind_eq_some_iff.1 h
    obtain ⟨i, ht, h⟩ := Option.bind_eq_some_iff.1 h
    obtain ⟨j, hf, h⟩ := Option.bind_eq_some_iff.1 h
    rw [← Option.some.inj h, merge_find]
    exact (checkExpr_le c hc).find x
  | .whileStmt c body, _, _, _, h, x => by
    rw [checkStmt] at h
    obtain ⟨l, hc, h⟩ := Option.bind_eq_some_iff.1 h
    obtain ⟨i, ht, h⟩ := Option.bind_eq_some_iff.1 h
    rw [← Option.some.inj h, merge_find]
    exact (checkExpr_le c hc).find x
  | .forIn _ _ iterable _, _, _, _, h, x => by
    rw [checkStmt] at h
    obtain ⟨l, hc, h⟩ := Option.bind_eq_some_iff.1 h
    rw [(copied_eq_some h).1]
    exact (checkExpr_le iterable hc).find x
  | .switchStmt operand _, _, _, _, h, x => by
    rw [checkStmt] at h
    obtain ⟨l, hc, h⟩ := Option.bind_eq_some_iff.1 h
    split_ifs at h
    rw [(copied_eq_some h).1]
    exact (checkExpr_le operand hc).find x
  | .exprStmt e, _, _, _, h, x => by
    rw [checkStmt] at h
    exact (checkExpr_le e h).find x
  | .varDecl d init, _, _, _, h, x => by
    rw [checkStmt] at h
    obtain ⟨l, hc, h⟩ := Option.bind_eq_some_iff.1 h
    rw [← Option.some.inj h]
    exact find_declareAll_congr [d] (checkExprs_le _ hc).find x
  | .varDeclGroup decls init, _, _, _, h, x => by
    rw [checkStmt] at h
    obtain ⟨l, hc, h⟩ := Option.bind_eq_some_iff.1 h
    rw [← Option.some.inj h, declareGroup_eq decls init]
    exact find_declareAll_congr _ (checkExpr_le init hc).find x
  | .continueStmt, _, _, _, h, _ | .breakStmt, _, _, _, h, _ => by
    rw [checkStmt] at h
    split_ifs at h
    rw [← Option.some.inj h]
    rfl
  | .returnStmt es, _, _, _, h, x | .returnOk es, _, _, _, h, x => by
    rw [checkStmt] at h
    split_ifs at h
    exact (checkExprs_le es h).find x
  | .returnErr e, _, _, _, h, x => by
    rw [checkStmt] at h
    split_ifs at h
    exact (checkExpr_le e h).find x
  | .deferStmt body, _, _, _, h, x => by
    rw [checkStmt] at h
    exact checkStmt_find body h x
  | .whenStmt _ c _ _, _, _, _, h, x => by
    rw [checkStmt] at h
    obtain ⟨l, hc, h⟩ := Option.bind_eq_some_iff.1 h
    obtain ⟨i, ht, h⟩ := Option.bind_eq_some_iff.1 h
    rw [(copied_eq_some h).1]
    exact (checkExpr_le c hc).find x
  | .asmStmt _, _, _, _, h, _ => by
    rw [checkStmt] at h
    rw [← Option.some.inj h]
    rfl

/-! ## Deferred statements -/

/-- A narrowing changes the states of the locals it has an entry for. -/
theorem applyConditionNarrowing_state (locals : LocalScope) (ns : List ConditionNarrowing)
    (v : Bool) (x : Name) :
    if findErrorLocal locals x = true ∧ ∃ n ∈ ns, n.varName = x then
      ∃ n ∈ ns, n.varName = x ∧ stateIn (applyConditionNarrowing locals ns v) x = n.state v
    else stateIn (applyConditionNarrowing locals ns v) x = stateIn locals x := by
  rw [applyConditionNarrowing]
  induction ns generalizing locals with
  | nil => simp
  | cons n ns ih =>
    rw [List.foldl_cons]
    have hstep := ih (if findErrorLocal locals n.varName then locals.setState n.varName (n.state v)
      else locals)
    have hfind : findErrorLocal (if findErrorLocal locals n.varName then
        locals.setState n.varName (n.state v) else locals) x = findErrorLocal locals x := by
      split_ifs
      · exact find_setState x
      · rfl
    rw [hfind] at hstep
    by_cases hx : findErrorLocal locals x = true
    · by_cases hns : ∃ n ∈ ns, n.varName = x
      · rw [if_pos ⟨hx, hns⟩] at hstep
        obtain ⟨m, hm, hmx, hst⟩ := hstep
        obtain ⟨m', hm', hmx'⟩ := hns
        rw [if_pos ⟨hx, m', List.mem_cons_of_mem _ hm', hmx'⟩]
        exact ⟨m, List.mem_cons_of_mem _ hm, hmx, hst⟩
      · rw [if_neg fun h => hns h.2] at hstep
        by_cases hn : n.varName = x
        · rw [if_pos ⟨hx, n, List.mem_cons_self, hn⟩]
          refine ⟨n, List.mem_cons_self, hn, hstep.trans ?_⟩
          rw [hn, if_pos hx, stateIn_setState_self, if_pos]
          rw [findErrorLocal] at hx
          cases hl : locals x with
          | none => simp [hl] at hx
          | some b => rfl
        · rw [if_neg (by simp [hn]; exact fun _ => by simpa using hns), hstep]
          split_ifs
          · exact stateIn_setState_ne (Ne.symm hn)
          · rfl
    · rw [if_neg fun h => hx h.1] at hstep ⊢
      rw [hstep]
      split_ifs with hn
      · exact stateIn_setState_ne fun h => hx (h ▸ hn)
      · rfl

/-- The two branches of a condition agree on nothing that was not known before. -/
theorem known_of_branches {c : Expr} (h : (stateIn (branch locals c true) x).Known)
    (heq : stateIn (branch locals c false) x = stateIn (branch locals c true) x) :
    stateIn locals x = stateIn (branch locals c true) x := by
  have ht := applyConditionNarrowing_state locals (computeConditionNarrowing locals c) true x
  have hf := applyConditionNarrowing_state locals (computeConditionNarrowing locals c) false x
  rw [← branch] at ht hf
  split_ifs at ht hf with hx
  · exfalso
    obtain ⟨n, hn, -, hst⟩ := ht
    obtain ⟨m, hm, -, hsf⟩ := hf
    rcases computeConditionNarrowing_cases locals c with ⟨y, _, hc⟩ | ⟨y, _, hc⟩ | hc | hc | hc <;>
      rw [hc] at hn hm
    · rw [List.mem_singleton.1 hn] at hst
      rw [List.mem_singleton.1 hm] at hsf
      simp [hst, hsf, ConditionNarrowing.state] at heq
    · rw [List.mem_singleton.1 hn] at hst
      rw [List.mem_singleton.1 hm] at hsf
      simp [hst, hsf, ConditionNarrowing.state] at heq
    · have := foldl_right (fun _ _ _ => narrowAnd_else) (by simp) m hm
      rw [← heq, hsf, this] at h
      simp [ErrorState.Known] at h
    · have := foldl_right (fun _ _ _ => narrowOr_then) (by simp) n hn
      rw [hst, this] at h
      simp [ErrorState.Known] at h
    · simp at hn
  · exact ht.symm

/-- The statement lies in a `defer` and in no loop inside it. -/
def Nesting.Confined (n : Nesting) : Prop :=
  ∃ base, n.deferLoopBase = some base ∧ n.loopDepth ≤ base

theorem Nesting.confined_defer (n : Nesting) : n.defer.Confined := ⟨_, rfl, Nat.le_refl _⟩

theorem Nesting.Confined.mayBreak {n : Nesting} (h : n.Confined) : n.mayBreak = false := by
  obtain ⟨base, hb, hle⟩ := h
  simp only [Nesting.mayBreak, hb, Bool.and_eq_false_iff, decide_eq_false_iff_not]
  exact .inr (by omega)

theorem Nesting.Confined.inDefer {n : Nesting} (h : n.Confined) : n.deferLoopBase ≠ none := by
  obtain ⟨base, hb, -⟩ := h
  simp [hb]

mutual

/-- A statement that leaves a `defer` is reported. -/
theorem exits_rejected : ∀ (s : Stmt) {n : Nesting} {locals : LocalScope}, n.Confined →
    stmtAlwaysExits s = true → checkStmt T n locals s = none
  | .block stmts, _, _, hn, h => by
    rw [stmtAlwaysExits] at h
    rw [checkStmt, lastExits_rejected stmts hn h]
    rfl
  | .ifElse c t f, _, _, hn, h => by
    rw [stmtAlwaysExits, Bool.and_eq_true] at h
    rw [checkStmt]
    refine Option.bind_eq_none_iff.2 fun l _ => ?_
    rw [exits_rejected t hn h.1]
    rfl
  | .switchStmt operand arms, n, locals, hn, h => by
    rw [stmtAlwaysExits, Bool.and_eq_true] at h
    rw [checkStmt]
    refine Option.bind_eq_none_iff.2 fun l _ => ?_
    rw [armsExit_rejected arms hn (by rintro rfl; simp at h) h.2]
    split_ifs <;> rfl
  | .returnStmt _, _, _, hn, _ | .returnErr _, _, _, hn, _ | .returnOk _, _, _, hn, _ => by
    rw [checkStmt, if_neg hn.inDefer]
  | .breakStmt, _, _, hn, _ | .continueStmt, _, _, hn, _ => by
    rw [checkStmt, hn.mayBreak]
    rfl
  | .ifThen _ _, _, _, _, h | .whileStmt _ _, _, _, _, h | .forIn _ _ _ _, _, _, _, h
  | .exprStmt _, _, _, _, h | .varDecl _ _, _, _, _, h | .varDeclGroup _ _, _, _, _, h
  | .deferStmt _, _, _, _, h | .whenStmt _ _ _ _, _, _, _, h | .asmStmt _, _, _, _, h => by
    simp [stmtAlwaysExits] at h

theorem lastExits_rejected : ∀ (stmts : List Stmt) {n : Nesting} {locals : LocalScope},
    n.Confined → lastAlwaysExits stmts = true → checkStmts T n locals stmts = none
  | [], _, _, _, h => by simp [lastAlwaysExits] at h
  | [s], _, _, hn, h => by
    rw [lastAlwaysExits] at h
    rw [checkStmts, exits_rejected s hn h]
    rfl
  | s :: s' :: stmts, _, _, hn, h => by
    rw [lastAlwaysExits] at h
    rw [checkStmts]
    exact Option.bind_eq_none_iff.2 fun l _ => lastExits_rejected (s' :: stmts) hn h

theorem armsExit_rejected : ∀ (arms : List SwitchArm) {n : Nesting} {locals : LocalScope},
    n.Confined → arms ≠ [] → armsAlwaysExit arms = true → checkSwitchArms T n locals arms = none
  | [], _, _, _, h, _ => absurd rfl h
  | .variant _ c s :: arms, _, _, hn, _, h => by
    rw [armsAlwaysExit, Bool.and_eq_true] at h
    rw [checkSwitchArms, exits_rejected s hn h.1]
    rfl
  | .literal _ s :: arms, _, _, hn, _, h => by
    rw [armsAlwaysExit, Bool.and_eq_true] at h
    rw [checkSwitchArms, exits_rejected s hn h.1]
    rfl
  | .default s :: arms, _, _, hn, _, h => by
    rw [armsAlwaysExit, Bool.and_eq_true] at h
    rw [checkSwitchArms, exits_rejected s hn h.1]
    rfl

end

/-- What is known after a deferred statement was known before it. -/
theorem known_of_deferred : ∀ (s : Stmt) {n : Nesting} {locals locals' : LocalScope} {x : Name},
    n.Confined → checkStmt T n locals s = some locals' → (stateIn locals' x).Known →
      stateIn locals x = stateIn locals' x ∧ ∀ d ∈ declaredBy s, d.name ≠ x
  | .block stmts, _, _, _, _, _, h, _ => by
    rw [checkStmt] at h
    exact ⟨by rw [(copied_eq_some h).1], by simp [declaredBy]⟩
  | .ifThen c t, _, _, _, x, hn, h, hk => by
    rw [checkStmt] at h
    obtain ⟨l, hc, h⟩ := Option.bind_eq_some_iff.1 h
    obtain ⟨i, ht, h⟩ := Option.bind_eq_some_iff.1 h
    have hle := checkExpr_le c hc
    have hexit : earlyExit l c t = none := by
      rw [earlyExit, if_neg fun hex => by simp [exits_rejected t hn hex] at ht]
    rw [hexit] at h
    obtain rfl := Option.some.inj h
    obtain ⟨h1, h2⟩ := merge_known hk
    rw [← h1] at hk
    have hi := (known_of_deferred t hn ht hk).1
    have hl := known_of_branches (hi ▸ hk) (by rw [h2, hi, h1])
    rw [hi, h1] at hl
    exact ⟨hl ▸ hle.state x (by rw [hl, ← h1]; exact hk), by simp [declaredBy]⟩
  | .ifElse c t f, _, _, _, x, hn, h, hk => by
    rw [checkStmt] at h
    obtain ⟨l, hc, h⟩ := Option.bind_eq_some_iff.1 h
    obtain ⟨i, ht, h⟩ := Option.bind_eq_some_iff.1 h
    obtain ⟨j, hf, h⟩ := Option.bind_eq_some_iff.1 h
    have hle := checkExpr_le c hc
    obtain rfl := Option.some.inj h
    obtain ⟨h1, h2⟩ := merge_known hk
    have hi := (known_of_deferred t hn ht (h1 ▸ hk)).1
    have hj := (known_of_deferred f hn hf (h2 ▸ hk)).1
    have hl := known_of_branches (by rw [hi, h1]; exact hk) (by rw [hj, h2, hi, h1])
    rw [hi, h1] at hl
    exact ⟨hl ▸ hle.state x (by rw [hl]; exact hk), by simp [declaredBy]⟩
  | .whileStmt c body, _, _, _, x, _, h, hk => by
    rw [checkStmt] at h
    obtain ⟨l, hc, h⟩ := Option.bind_eq_some_iff.1 h
    obtain ⟨i, ht, h⟩ := Option.bind_eq_some_iff.1 h
    obtain rfl := Option.some.inj h
    have hl := (merge_known hk).1
    exact ⟨hl ▸ (checkExpr_le c hc).state x (by rw [hl]; exact hk), by simp [declaredBy]⟩
  | .forIn _ _ iterable _, _, _, _, x, _, h, hk => by
    rw [checkStmt] at h
    obtain ⟨l, hc, h⟩ := Option.bind_eq_some_iff.1 h
    obtain ⟨rfl, -⟩ := copied_eq_some h
    exact ⟨(checkExpr_le iterable hc).state x hk, by simp [declaredBy]⟩
  | .switchStmt operand _, _, _, _, x, _, h, hk => by
    rw [checkStmt] at h
    obtain ⟨l, hc, h⟩ := Option.bind_eq_some_iff.1 h
    split_ifs at h
    obtain ⟨rfl, -⟩ := copied_eq_some h
    exact ⟨(checkExpr_le operand hc).state x hk, by simp [declaredBy]⟩
  | .exprStmt e, _, _, _, x, _, h, hk => by
    rw [checkStmt] at h
    exact ⟨(checkExpr_le e h).state x hk, by simp [declaredBy]⟩
  | .varDecl d init, _, _, _, x, _, h, hk => by
    rw [checkStmt] at h
    obtain ⟨l, hc, h⟩ := Option.bind_eq_some_iff.1 h
    obtain rfl := Option.some.inj h
    obtain ⟨heq, hne⟩ := known_of_declareAll [d] hk
    rw [← show stateIn l x = stateIn (l.declare T d true) x from heq] at hk ⊢
    exact ⟨(checkExprs_le _ hc).state x hk, hne⟩
  | .varDeclGroup decls init, _, _, _, x, _, h, hk => by
    rw [checkStmt] at h
    obtain ⟨l, hc, h⟩ := Option.bind_eq_some_iff.1 h
    obtain rfl := Option.some.inj h
    rw [declareGroup_eq decls init] at hk ⊢
    obtain ⟨heq, hne⟩ := known_of_declareAll _ hk
    rw [← heq] at hk ⊢
    exact ⟨(checkExpr_le init hc).state x hk, hne⟩
  | .continueStmt, _, _, _, _, hn, h, _ | .breakStmt, _, _, _, _, hn, h, _ => by
    simp [checkStmt, hn.mayBreak] at h
  | .returnStmt es, _, _, _, _, hn, h, _ | .returnOk es, _, _, _, _, hn, h, _
  | .returnErr e, _, _, _, _, hn, h, _ => by
    simp [checkStmt, hn.inDefer] at h
  | .deferStmt body, n, _, _, _, _, h, hk => by
    rw [checkStmt] at h
    exact known_of_deferred body n.confined_defer h hk
  | .whenStmt _ c _ _, _, _, _, x, _, h, hk => by
    rw [checkStmt] at h
    obtain ⟨l, hc, h⟩ := Option.bind_eq_some_iff.1 h
    obtain ⟨i, ht, h⟩ := Option.bind_eq_some_iff.1 h
    obtain ⟨rfl, -⟩ := copied_eq_some h
    exact ⟨(checkExpr_le c hc).state x hk, by simp [declaredBy]⟩
  | .asmStmt _, _, _, _, _, _, h, _ => by
    rw [checkStmt] at h
    exact ⟨by rw [Option.some.inj h], by simp [declaredBy]⟩

end Mirage.Typestate
