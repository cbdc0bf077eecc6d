import Mirage.Wasm.Dispatch

/-!
# The dispatch loop is faithful

The terminators of a function prescribe which block is entered next, with which arguments in
its parameters (`mirStep`). The dispatch loop does the same, turn by turn.

* `runAll_goto`, `runAll_branch`, `runAll_switch`, `runAll_jump`: the code of a terminator puts
  the next block into the state local and branches out of all the blocks around it, also out of
  an `if` (`BackTo`).
* `runs_block`: the code of a block does what the block does up to its terminator.
* `turn`: the jump table lands at the code of the block in the state local.
* `dispatchFaithful_iff`: the loop of an accepted function is faithful exactly when there is code
  for all of its terminators. There is none for arguments to the first block, whose parameters
  are not staged, and the comparison of a float with a case is not valid.
-/

namespace Mirage.Wasm

open Staging FirstMatch

variable {l : Locals} {state i : Nat} {W : Type} {ord : Ordinary l state W} {fuel : Nat}
  {s t u : State} {w : W} {module : Module} {fn : Function} {v : ValueId}

/-! ## Pieces of code -/

theorem runAll_append (code code' : List Ctrl) (x : State × W) :
    Ctrl.runAll ord fuel (code ++ code') x =
      (Ctrl.runAll ord fuel code x).andThen (Ctrl.runAll ord fuel code') := by
  induction code generalizing x with
  | nil => rw [List.nil_append, Ctrl.runAll]; rfl
  | cons c code ih =>
    rw [List.cons_append, Ctrl.runAll, Ctrl.runAll]
    cases c.run ord fuel x with
    | next y => exact ih y
    | br depth y => rfl
    | done r => rfl

/-- Straight-line code that gets to its end. -/
theorem runAll_ops {code : List Instr} (h : run code s = .ok t) (rest : List Ctrl) (w : W) :
    Ctrl.runAll ord fuel (code.map .op ++ rest) (s, w) = Ctrl.runAll ord fuel rest (t, w) := by
  induction code generalizing s with
  | nil =>
    obtain rfl : s = t := by simpa using h
    rfl
  | cons i code ih =>
    rw [run_cons] at h
    rw [List.map_cons, List.cons_append, Ctrl.runAll, Ctrl.run]
    cases hi : i.run s with
    | ok s' =>
      rw [hi] at h
      exact ih h
    | trap => rw [hi] at h; cases h
    | invalid => rw [hi] at h; cases h

/-- Straight-line code that the validator rejects. -/
theorem runAll_invalid {code : List Instr} (h : run code s = .invalid) (rest : List Ctrl) (w : W) :
    Ctrl.runAll ord fuel (code.map .op ++ rest) (s, w) = .done .invalid := by
  induction code generalizing s with
  | nil => exact absurd h (by simp)
  | cons i code ih =>
    rw [run_cons] at h
    rw [List.map_cons, List.cons_append, Ctrl.runAll, Ctrl.run]
    cases hi : i.run s with
    | ok s' =>
      rw [hi] at h
      exact ih h
    | trap => rw [hi] at h; cases h
    | invalid => rfl

/-! ## What code leaves alone -/

theorem pushOr_locals {s t : State} {o : Option Val} (h : s.pushOr o = .ok t) :
    t.locals = s.locals := by
  cases o with
  | none => cases h
  | some x =>
    cases h
    rfl

theorem run_locals {j : Instr} {s t : State} {i : Nat} (h : j.run s = .ok t)
    (hj : j ≠ .localSet i) : t.locals i = s.locals i := by
  obtain ⟨stack, locals⟩ := s
  cases j with
  | localSet v =>
    simp only [Instr.run] at h
    split at h
    · split_ifs at h
      cases h
      exact if_neg fun (heq : i = v) => hj (heq ▸ rfl)
    · cases h
  | localGet | i32Const | i64Const => cases h; rfl
  | i32Extend8S | i32Extend16S | i64ExtendI32S | i64ExtendI32U =>
    simp only [Instr.run, State.unary32] at h
    split at h <;> cases h
    rfl
  | i32Op | i64Op | i32Rel | i64Rel =>
    simp only [Instr.run, State.binary32, State.binary64] at h
    split at h
    · rw [pushOr_locals h]
    · cases h
  | i32WrapI64 =>
    simp only [Instr.run] at h
    split at h <;> cases h
    rfl
  | select =>
    simp only [Instr.run] at h
    split at h
    · split_ifs at h <;> cases h <;> rfl
    · cases h

/-- Code changes the locals it sets. -/
theorem locals_of_run {code : List Instr} {s t : State} {i : Nat} (h : run code s = .ok t)
    (hcode : .localSet i ∉ code) : t.locals i = s.locals i := by
  induction code generalizing s with
  | nil =>
    obtain rfl : s = t := by simpa using h
    rfl
  | cons j code ih =>
    rw [run_cons] at h
    rw [List.mem_cons, not_or] at hcode
    cases hj : j.run s with
    | ok u =>
      rw [hj] at h
      rw [ih h hcode.2, run_locals hj fun heq => hcode.1 heq.symm]
    | trap => rw [hj] at h; cases h
    | invalid => rw [hj] at h; cases h
/-! ## Hidden locals -/

namespace Locals.Same

theorem trans (h : l.Same state s t) (h' : l.Same state t u) : l.Same state s u where
  stack := h'.stack.trans h.stack
  locals i hi := (h'.locals i hi).trans (h.locals i hi)

/-- Setting the state local is not seen. -/
theorem setState (h : l.Same state s t) (x : Val) : l.Same state s (t.setLocal state x) where
  stack := h.stack
  locals i hi := by
    show (if i = state then x else t.locals i) = _
    rw [if_neg fun heq => hi (.inl heq)]
    exact h.locals i hi

theorem clear (h : l.Same state s t) (stack : List Val) :
    l.Same state (s.clear stack) (t.clear stack) := ⟨rfl, h.locals⟩

end Locals.Same

/-- The state local has a type. -/
theorem Locals.Typed.setState (ht : l.Typed t) (hown : l.Own state) (k : BitVec 32) :
    l.Typed (t.setLocal state (.i32 k)) := by
  intro i type hi
  show (if i = state then Val.i32 k else t.locals i).type = type
  split_ifs with heq
  · rw [heq, hown.type] at hi
    exact Option.some.inj hi
  · exact ht i type hi

/-- The local of a value is not hidden. -/
theorem not_hidden_home (hok : l.Ok fn) (hown : l.Own state) (hv : l.localOf (.home v) ≠ none) :
    ¬l.Hidden state (l.index (.home v)) := by
  obtain ⟨i, hi⟩ := Option.ne_none_iff_exists'.mp hv
  rw [Locals.index, hi, Option.getD_some]
  rintro (rfl | ⟨p, hp⟩)
  · exact hown.place _ hi
  · exact absurd (hok.inj _ _ i hi hp) (by simp)

/-- The values are seen. -/
theorem Locals.Same.get (h : l.Same state s t) (hok : l.Ok fn) (hown : l.Own state)
    (hv : l.localOf (.home v) ≠ none) : l.get (.home v) t = l.get (.home v) s :=
  h.locals _ (not_hidden_home hok hown hv)

theorem Locals.Typed.get (h : l.Typed s) (hok : l.Ok fn) (hv : l.localOf (.home v) ≠ none) :
    (l.get (.home v) s).type = valType (fn.valueType v) := by
  obtain ⟨i, hi⟩ := Option.ne_none_iff_exists'.mp hv
  rw [Locals.get, Locals.index, hi, Option.getD_some]
  exact h i _ (hok.types _ i hi)

/-! ## Terminators -/

/-- The flow branches out of `depth` labels, with the block in the state local, and with what is
    seen of the state. -/
def BackTo (l : Locals) (state depth : Nat) (c : BlockId × State × W)
    (flow : Labels.Flow (State × W) (End W)) : Prop :=
  ∃ u, flow = .br depth (u, c.2.2) ∧ u.locals state = .i32 (BitVec.ofNat 32 c.1) ∧
    l.Typed u ∧ ∀ i, ¬l.Hidden state i → u.locals i = c.2.1.locals i

section

variable {block target : BlockId} {depth extra : Nat} {inst : Inst} {x : Val}

theorem runAll_goto (hown : l.Own (stateIndex module fn)) (ht : l.Typed t) :
    BackTo l (stateIndex module fn) (loopDepth fn block extra) (target, t, w)
      (Ctrl.runAll ord fuel (dispatchGoto module fn block extra target) (t, w)) := by
  have htype : (t.locals (stateIndex module fn)).type = .i32 := ht _ _ hown.type
  have hrun : run [.i32Const (BitVec.ofNat 32 target), .localSet (stateIndex module fn)] t =
      .ok (t.setLocal (stateIndex module fn) (.i32 (BitVec.ofNat 32 target))) := by
    rw [run_const32, run_set htype]
  refine ⟨_, ?_, if_pos rfl, ht.setState hown _, fun i hi => if_neg fun heq => hi (.inl heq)⟩
  exact runAll_ops hrun [.br (loopDepth fn block extra)] w

/-- What is seen from before, where only hidden locals were changed. -/
theorem BackTo.of_same {flow : Labels.Flow (State × W) (End W)}
    (h : BackTo l state depth (target, t, w) flow) (hsame : l.Same state s t) :
    BackTo l state depth (target, s, w) flow := by
  obtain ⟨u, hflow, hstate, htyped, hseen⟩ := h
  exact ⟨u, hflow, hstate, htyped, fun i hi => (hseen i hi).trans (hsame.locals i hi)⟩

/-- A branch out of the body of an `if`. -/
theorem BackTo.close {flow : Labels.Flow (State × W) (End W)} {stack stack' : List Val}
    (h : BackTo l state (depth + 1) (target, s.clear stack, w) flow) :
    BackTo l state depth (target, s, w) (flow.close (withStack stack')) := by
  obtain ⟨u, rfl, hstate, htyped, hseen⟩ := h
  exact ⟨u, rfl, hstate, htyped, hseen⟩

/-- After a branch nothing else is run. -/
theorem BackTo.andThen {c : BlockId × State × W} {flow : Labels.Flow (State × W) (End W)}
    (h : BackTo l state depth c flow) (f : State × W → Labels.Flow (State × W) (End W)) :
    BackTo l state depth c (flow.andThen f) := by
  obtain ⟨u, rfl, hstate, htyped, hseen⟩ := h
  exact ⟨u, rfl, hstate, htyped, hseen⟩

/-- One comparison of a switch: it is decided by the value of the case. -/
theorem run_caseCompare {type : Ty} (hfloat : isFloat type = false)
    (hx : (t.locals i).type = valType type) (value : Nat) :
    run (switchCompare (isI64Class type) i value) t =
      .ok (t.push (boolVal (decide (caseVal (isI64Class type) value = t.locals i)))) := by
  cases hwide : isI64Class type with
  | true =>
    obtain rfl : type = .i64 := by simpa [isI64Class] using hwide
    obtain ⟨y, hy⟩ : ∃ y, t.locals i = .i64 y := by
      cases hti : t.locals i with
      | i64 y => exact ⟨y, rfl⟩
      | _ => rw [hti] at hx; cases hx
    have hiff : y = (BitVec.ofNat 32 value).signExtend 64 ↔ caseVal true value = .i64 y := by
      rw [caseVal, if_pos rfl, Val.i64.injEq, eq_comm]
    rw [switchCompare, if_pos rfl, run_get, hy, run_const64, run_rel64, run_nil, RelOp.holds]
    simp only [hiff]
  | false =>
    obtain ⟨y, hy⟩ : ∃ y, t.locals i = .i32 y := by
      have hnarrow : valType type = .i32 := by
        cases type <;> first | rfl | (cases hfloat; done) | cases hwide
      cases hti : t.locals i with
      | i32 y => exact ⟨y, rfl⟩
      | _ => rw [hti, hnarrow] at hx; cases hx
    have hiff : y = BitVec.ofNat 32 value ↔ caseVal false value = .i32 y := by
      rw [caseVal, if_neg (by simp), Val.i32.injEq, eq_comm]
    rw [switchCompare, if_neg (by simp), run_get, hy, run_const32, run_rel32, run_nil, RelOp.holds]
    simp only [hiff]

/-- The cases go to the block of the first one for the scrutinee, and else to the default. -/
theorem runAll_switch (hown : l.Own (stateIndex module fn)) (ht : l.Typed t) {a : ValueId}
    (hfloat : isFloat (fn.valueType a) = false)
    (hx : (l.get (.home a) t).type = valType (fn.valueType a)) (args : List Nat)
    (default : BlockId) :
    BackTo l (stateIndex module fn) (loopDepth fn block 0)
      (FirstMatch.target (caseVal (isI64Class (fn.valueType a))) (casePairs args) default
        (l.get (.home a) t), t, w)
      (Ctrl.runAll ord fuel (dispatchPairs module fn l block a args ++
        dispatchGoto module fn block 0 default) (t, w)) := by
  induction args using casePairs.induct with
  | case1 value target rest ih =>
    rw [dispatchPairs, List.append_assoc, runAll_ops (run_caseCompare hfloat hx value), casePairs,
      target_cons, List.cons_append, Ctrl.runAll, Ctrl.run]
    by_cases hcase : caseVal (isI64Class (fn.valueType a)) value = l.get (.home a) t
    · rw [if_pos hcase]
      have hif : decide (caseVal (isI64Class (fn.valueType a)) value =
        t.locals (l.index (.home a))) = true := decide_eq_true hcase
      rw [hif]
      have hgoto : BackTo l (stateIndex module fn) (loopDepth fn block 0 + 1)
          (target, t.clear [], w)
          (Ctrl.runAll ord fuel (dispatchGoto module fn block 1 target) (t.clear [], w)) :=
        runAll_goto hown ht
      exact hgoto.close.andThen _
    · rw [if_neg hcase]
      have hif : decide (caseVal (isI64Class (fn.valueType a)) value =
        t.locals (l.index (.home a))) = false := decide_eq_false hcase
      rw [hif]
      exact ih
  | case2 args hargs =>
    have hpairs : casePairs args = [] := by
      rw [casePairs]
      exact hargs
    have hcode : dispatchPairs module fn l block a args = [] := by
      rw [dispatchPairs]
      exact hargs
    rw [hpairs, hcode, List.nil_append]
    exact runAll_goto hown ht

/-- A branch goes to the one block or the other. -/
theorem runAll_branch (hown : l.Own (stateIndex module fn)) (ht : l.Typed t) {b c : BlockId}
    (hx : (l.get (.home v) t).type = .i32) :
    BackTo l (stateIndex module fn) depth
      (if (l.get (.home v) t).holds then b else c, t, w)
      (Ctrl.runAll ord fuel [.op (.i32Const (BitVec.ofNat 32 b)),
        .op (.i32Const (BitVec.ofNat 32 c)), .op (.localGet (l.index (.home v))),
        .op .select, .op (.localSet (stateIndex module fn)), .br depth] (t, w)) := by
  have htype : (t.locals (stateIndex module fn)).type = .i32 := ht _ _ hown.type
  obtain ⟨y, hy⟩ : ∃ y, t.locals (l.index (.home v)) = .i32 y := by
    rw [Locals.get] at hx
    cases hv : t.locals (l.index (.home v)) with
    | i32 y => exact ⟨y, rfl⟩
    | _ => rw [hv] at hx; cases hx
  have hholds : (l.get (.home v) t).holds = decide (y ≠ 0) := by
    rw [Locals.get, hy, Val.holds]
  have hrun : run [.i32Const (BitVec.ofNat 32 b), .i32Const (BitVec.ofNat 32 c),
      .localGet (l.index (.home v)), .select, .localSet (stateIndex module fn)] t =
      .ok (t.setLocal (stateIndex module fn)
        (.i32 (BitVec.ofNat 32 (if (l.get (.home v) t).holds then b else c)))) := by
    have hsame : (Val.i32 (BitVec.ofNat 32 b)).type = (Val.i32 (BitVec.ofNat 32 c)).type := rfl
    rw [run_const32, run_const32, run_get, push_locals, push_locals, hy, run_select hsame, hholds]
    by_cases hzero : y = 0
    · rw [hzero, if_neg (by simp), if_neg (by simp)]
      exact run_set htype
    · rw [if_pos hzero, if_pos (decide_eq_true hzero)]
      exact run_set htype
  refine ⟨_, runAll_ops hrun [.br depth] w, if_pos rfl, ht.setState hown _,
    fun i hi => if_neg fun heq => hi (.inl heq)⟩

/-- The pairs of a jump: where the code does not set a local, and where it does. -/
theorem Locals.assign_locals (l : Locals) (s : State) (pairs : List (ValueId × ValueId)) (i : Nat) :
    (∃ p ∈ pairs, l.index (.home p.2) = i ∧
        (l.assign pairs s).locals i = s.locals (l.index (.home p.1))) ∨
      (∀ p ∈ pairs, l.index (.home p.2) ≠ i) ∧ (l.assign pairs s).locals i = s.locals i := by
  rw [Locals.assign]
  cases hfind : pairs.find? fun p => l.index (.home p.2) = i with
  | some p => exact .inl ⟨p, List.mem_of_find?_eq_some hfind, by
      simpa using List.find?_some hfind, by simp [hfind]⟩
  | none => exact .inr ⟨by simpa using hfind, by simp [hfind]⟩

/-- The locals that the copies of a jump set. -/
theorem set_of_transferBlockArgs {args : List ValueId} {code : List Instr}
    (h : transferBlockArgs fn l target args = some code) (hi : .localSet i ∈ code) :
    (∃ p, l.localOf (.staging p) = some i) ∨
      ∃ q ∈ args.zip (fn.blocks.getD target {}).params, l.index (.home q.2) = i := by
  have hstaged : ∀ q ∈ args.zip (fn.blocks.getD target {}).params,
      l.localOf (.staging q.2) ≠ none := fun q hq hnone => by
    rw [transferBlockArgs_eq_none hq hnone] at h
    cases h
  rw [transferBlockArgs_eq_some hstaged] at h
  obtain rfl := Option.some.inj h
  simp only [intoStaging, outOfStaging, List.mem_append, List.mem_flatMap, List.mem_map] at hi
  rcases hi with ⟨k, ⟨q, hq, rfl⟩, hi⟩ | ⟨k, ⟨q, hq, rfl⟩, hi⟩
  · obtain ⟨j, hj⟩ := Option.ne_none_iff_exists'.mp (hstaged q hq)
    have hindex : i = l.index (.staging q.2) := by simpa using hi
    refine .inl ⟨q.2, ?_⟩
    rw [hindex, Locals.index, hj, Option.getD_some]
  · have hindex : i = l.index (.home q.2) := by simpa using hi
    exact .inr ⟨q, hq, hindex.symm⟩

/-- A jump goes to its target, with the arguments in the parameters. -/
theorem runAll_jump (block : BlockId) {jumped : Block} {b : BlockId}
    (h : JumpAt module fn b jumped inst (fn.blocks.getD inst.a {}))
    (hfirst : inst.a ≠ 0 ∨ inst.args = [])
    {ord : Ordinary (assignLocals module fn true) (stateIndex module fn) W} :
    ∃ code, emitInst module fn (assignLocals module fn true) block inst = some code ∧
      ∀ t w, (assignLocals module fn true).Typed t →
        BackTo (assignLocals module fn true) (stateIndex module fn) (loopDepth fn block 0)
          (inst.a, (assignLocals module fn true).assign (argPairs fn inst) t, w)
          (Ctrl.runAll ord fuel code (t, w)) := by
  obtain ⟨copies, hcopies, hpass⟩ := (passesArgs_iff h).2 hfirst true
  refine ⟨copies.map .op ++ dispatchGoto module fn block 0 inst.a, ?_, fun t w ht => ?_⟩
  · rw [emitInst, h.op]
    show Option.map _ _ = _
    rw [hcopies, Option.map_some]
  · obtain ⟨t', hrun, ht', -, hpar⟩ := hpass t ht
    rw [runAll_ops hrun]
    have hgoto : BackTo (assignLocals module fn true) (stateIndex module fn)
        (loopDepth fn block 0) (inst.a, t', w)
        (Ctrl.runAll ord fuel (dispatchGoto module fn block 0 inst.a) (t', w)) :=
      runAll_goto (stateIndex_own module fn) ht'
    obtain ⟨u, hflow, hstate, htyped, hseen⟩ := hgoto
    refine ⟨u, hflow, hstate, htyped, fun i hi => (hseen i hi).trans ?_⟩
    rcases (assignLocals module fn true).assign_locals t (argPairs fn inst) i with
      ⟨p, hp, hindex, hvalue⟩ | ⟨hnone, hvalue⟩
    · rw [hvalue, ← hindex]
      exact hpar.value p hp
    · rw [hvalue]
      refine locals_of_run hrun fun hset => ?_
      rcases set_of_transferBlockArgs hcopies hset with ⟨p, hp⟩ | ⟨q, hq, hindex⟩
      · exact hi (.inr ⟨p, hp⟩)
      · exact hnone q hq hindex

end

/-! ## Accepted functions -/

/-- A function that the verifier accepts, as it is built: the parameters of its blocks are
    different values, and a block is numbered by 32 bits. -/
structure Built (module : Module) (fn : Function) : Prop where
  accepted : fn.Accepted module
  value : ∀ block ∈ fn.blocks, ∀ p ∈ block.params, Verifier.valueOk fn p = true
  distinct : (fn.blocks.flatMap Block.params).Nodup
  blocks : fn.blocks.length ≤ 2 ^ 32

/-- The terminators that the dispatch loop has code for: no arguments go to the first block,
    and no float is compared with cases. -/
def Dispatchable (fn : Function) (inst : Inst) : Prop :=
  (inst.op = .jump → inst.a ≠ 0 ∨ inst.args = []) ∧
    (inst.op = .switch → inst.args ≠ [] → isFloat (fn.valueType inst.a) = false)

theorem casePairs_targets (args : List Nat) : (casePairs args).map Prod.snd = caseTargets args := by
  induction args using casePairs.induct with
  | case1 value target rest ih => rw [casePairs, caseTargets, List.map_cons, ih]
  | case2 args hargs =>
    rw [casePairs, caseTargets]
    · rfl
    · exact hargs
    · exact hargs

theorem lt_of_jumpsTo {target : BlockId} {args : List Nat} (h : fn.JumpsTo target args) :
    target < fn.blocks.length := by
  obtain ⟨block, hblock, -⟩ := h
  exact (List.getElem?_eq_some_iff.1 hblock).1

/-- What is seen of a state decides what the parameters get. -/
theorem Locals.Same.assign (h : l.Same state s t) (hok : l.Ok fn) (hown : l.Own state)
    {pairs : List (ValueId × ValueId)} (hpairs : ∀ p ∈ pairs, l.localOf (.home p.1) ≠ none) :
    l.Same state (l.assign pairs s) (l.assign pairs t) where
  stack := h.stack
  locals i hi := by
    rw [Locals.assign, Locals.assign]
    cases hfind : pairs.find? fun p => l.index (.home p.2) = i with
    | some p =>
      simp only [hfind, Option.map_some, Option.getD_some]
      exact h.get hok hown (hpairs p (List.mem_of_find?_eq_some hfind))
    | none =>
      simp only [hfind, Option.map_none, Option.getD_none]
      exact h.locals i hi

section

variable {block : Block} {inst : Inst} {b : BlockId}
  {ord : Ordinary (assignLocals module fn true) (stateIndex module fn) W}

/-- What a terminator is checked for. -/
theorem Built.checkInst_eq_nil (h : Built module fn) (hb : fn.blocks[b]? = some block)
    (hi : inst ∈ block.insts) : ∃ sig loc, Verifier.checkInst module fn sig inst loc = [] := by
  obtain ⟨sig, loc, -, hcheck⟩ := h.accepted.checkInst_eq_nil hb hi
  exact ⟨sig, loc, hcheck⟩

/-- A jump of the function. -/
theorem Built.jumpAt (h : Built module fn) {init : List Inst} (hb : fn.blocks[b]? = some block)
    (hinsts : block.insts = init ++ [inst]) (hop : inst.op = .jump) :
    JumpAt module fn b block inst (fn.blocks.getD inst.a {}) := by
  obtain ⟨sig, loc, hcheck⟩ := h.checkInst_eq_nil hb
    (hinsts ▸ List.mem_append_right init (List.mem_singleton_self inst))
  simp only [Verifier.checkInst, hop, Verifier.checkBlockArgs_eq_nil] at hcheck
  obtain ⟨target, htarget, -⟩ := hcheck
  refine ⟨h.accepted, hb, by rw [hinsts, List.getLast?_concat], hop, ?_, h.value, h.distinct⟩
  rw [List.getD_eq_getElem?_getD, htarget, Option.getD_some]

variable (module) in
theorem home_of_valueOk (h : Verifier.valueOk fn v = true) :
    (assignLocals module fn true).localOf (.home v) ≠ none :=
  home_ne_none module true (lt_of_valueOk h)

/-- Instructions that do nothing. -/
def idle (l : Locals) (state : Nat) : Ordinary l state Unit where
  exec _ x := some x
  setSp _ w := w
  typed inst s w s' w' h hs := by
    cases h
    exact hs
  stack inst s w s' w' h := by
    cases h
    rfl
  trap inst s t w _ h := by cases h
  blind inst s t w s' w' hsame h := by
    cases h
    exact ⟨t, rfl, hsame⟩

/-- The code of a terminator does what the terminator prescribes. -/
def Does (ord : Ordinary (assignLocals module fn true) (stateIndex module fn) W) (fuel : Nat)
    (b : BlockId) (inst : Inst) (code : List Ctrl) : Prop :=
  ∀ s t w, (assignLocals module fn true).Same (stateIndex module fn) s t →
    (assignLocals module fn true).Typed t → s.stack = [] →
    match terminate fn (assignLocals module fn true) inst (s, w) with
    | .inl c => c.1 < fn.blocks.length ∧ c.2.1.stack = [] ∧
      BackTo (assignLocals module fn true) (stateIndex module fn) (loopDepth fn b 0) c
        (Ctrl.runAll ord fuel code (t, w))
    | .inr exit => Ctrl.runAll ord fuel code (t, w) = .done exit.toEnd

theorem does_jump (h : JumpAt module fn b block inst (fn.blocks.getD inst.a {}))
    (hfirst : inst.a ≠ 0 ∨ inst.args = []) :
    ∃ code, emitInst module fn (assignLocals module fn true) b inst = some code ∧
      Does ord fuel b inst code := by
  obtain ⟨code, hcode, hruns⟩ := runAll_jump b h hfirst
  refine ⟨code, hcode, fun s t w hsame ht hstack => ?_⟩
  have hassign := hsame.assign (assignLocals_ok module fn true) (stateIndex_own module fn)
    (fun p hp => home_of_valueOk module (h.types p hp).1)
  simp only [terminate, h.op]
  exact ⟨(List.getElem?_eq_some_iff.1 h.dest).1, hstack, (hruns t w ht).of_same hassign⟩

theorem does_branch (hop : inst.op = .branch)
    (hcheck : ∃ sig loc, Verifier.checkInst module fn sig inst loc = []) :
    ∃ code, emitInst module fn (assignLocals module fn true) b inst = some code ∧
      Does ord fuel b inst code := by
  obtain ⟨sig, loc, hcheck⟩ := hcheck
  simp only [Verifier.checkInst, hop, List.append_eq_nil_iff, Verifier.checkOperandType_eq_nil,
    Verifier.checkBlockArgs_eq_nil] at hcheck
  obtain ⟨⟨⟨hok, htype⟩, hb⟩, hc⟩ := hcheck
  refine ⟨_, by rw [emitInst, hop], fun s t w hsame ht hstack => ?_⟩
  have hhome := home_of_valueOk module hok
  have hget := hsame.get (assignLocals_ok module fn true) (stateIndex_own module fn) hhome
  have hi32 := ht.get (assignLocals_ok module fn true) hhome
  rw [beq_iff_eq.1 htype] at hi32
  simp only [terminate, hop]
  refine ⟨?_, hstack, ?_⟩
  · split_ifs
    · exact lt_of_jumpsTo hb
    · exact lt_of_jumpsTo hc
  · rw [← hget]
    exact (runAll_branch (stateIndex_own module fn) ht hi32).of_same hsame

theorem does_switch (hop : inst.op = .switch)
    (hfloat : inst.args ≠ [] → isFloat (fn.valueType inst.a) = false)
    (hcheck : ∃ sig loc, Verifier.checkInst module fn sig inst loc = []) :
    ∃ code, emitInst module fn (assignLocals module fn true) b inst = some code ∧
      Does ord fuel b inst code := by
  obtain ⟨sig, loc, hcheck⟩ := hcheck
  simp only [Verifier.checkInst, hop, List.append_eq_nil_iff, Verifier.checkOperand_eq_nil,
    Verifier.checkBlockArgs_eq_nil] at hcheck
  obtain ⟨⟨hok, hdefault⟩, hcases⟩ := hcheck
  split_ifs at hcases
  simp only [List.flatMap_eq_nil_iff, Verifier.checkBlockArgs_eq_nil] at hcases
  refine ⟨_, by rw [emitInst, hop], fun s t w hsame ht hstack => ?_⟩
  have hhome := home_of_valueOk module hok
  have hget := hsame.get (assignLocals_ok module fn true) (stateIndex_own module fn) hhome
  have htype := ht.get (assignLocals_ok module fn true) hhome
  simp only [terminate, hop]
  refine ⟨?_, hstack, ?_⟩
  · rcases target_eq_or_mem (caseVal (isI64Class (fn.valueType inst.a))) (casePairs inst.args)
      inst.b ((assignLocals module fn true).get (.home inst.a) s) with heq | hmem
    · rw [heq]
      exact lt_of_jumpsTo hdefault
    · rw [casePairs_targets] at hmem
      exact lt_of_jumpsTo (hcases _ hmem)
  · rw [← hget]
    by_cases hargs : inst.args = []
    · rw [hargs]
      exact (runAll_goto (stateIndex_own module fn) ht).of_same hsame
    · exact (runAll_switch (stateIndex_own module fn) ht (hfloat hargs) htype inst.args
        inst.b).of_same hsame

theorem does_ret (hop : inst.op = .ret)
    (hcheck : ∃ sig loc, Verifier.checkInst module fn sig inst loc = []) :
    ∃ code, emitInst module fn (assignLocals module fn true) b inst = some code ∧
      Does ord fuel b inst code := by
  obtain ⟨sig, loc, hcheck⟩ := hcheck
  have hargs : ∀ v, inst.args.head? = some v → Verifier.valueOk fn v = true := by
    simp only [Verifier.checkInst, hop] at hcheck
    intro v hv
    split_ifs at hcheck
    · rw [Verifier.resultMustBe_eq_nil, List.isEmpty_iff] at hcheck
      rw [hcheck] at hv
      cases hv
    · rcases hlist : inst.args with _ | ⟨value, _ | ⟨value', rest⟩⟩
      · rw [hlist] at hv
        cases hv
      · rw [hlist] at hcheck hv
        cases hv
        exact (Verifier.checkOperandType_eq_nil.1 hcheck).1
      · rw [hlist] at hcheck
        cases hcheck
  refine ⟨_, by rw [emitInst, hop], fun s t w hsame ht hstack => ?_⟩
  simp only [terminate, hop]
  -- the frame is left first
  have hframe : ∃ w', ∀ rest, Ctrl.runAll ord fuel ((if needsFrame fn then
      [.op (.localGet (savedSpLocal fn)), .globalSetSp] else []) ++ rest) (t, w) =
        Ctrl.runAll ord fuel rest (t, w') := by
    by_cases hneeds : needsFrame fn = true
    · rw [if_pos hneeds]
      have htype := ht _ _ (savedSpLocal_own module fn).type
      cases hsp : t.locals (savedSpLocal fn) with
      | i32 sp =>
        refine ⟨ord.setSp sp w, fun rest => ?_⟩
        simp only [List.cons_append, List.nil_append, Ctrl.runAll, Ctrl.run, Instr.run,
          Outcome.then, Labels.Flow.andThen, State.push, hsp]
        rfl
      | _ => rw [hsp] at htype; cases htype
    · rw [if_neg hneeds]
      exact ⟨w, fun rest => rfl⟩
  obtain ⟨w', hframe⟩ := hframe
  rw [List.append_assoc, hframe]
  cases hhead : inst.args.head? with
  | none =>
    show Labels.Flow.done (End.ret t.stack.head?) = _
    rw [hsame.stack, hstack]
    rfl
  | some v =>
    have hget := hsame.get (assignLocals_ok module fn true) (stateIndex_own module fn)
      (home_of_valueOk module (hargs v hhead))
    exact congrArg (fun x => Labels.Flow.done (End.ret (some x))) hget

theorem does_unreachable (hop : inst.op = .unreachable) :
    ∃ code, emitInst module fn (assignLocals module fn true) b inst = some code ∧
      Does ord fuel b inst code := by
  refine ⟨_, by rw [emitInst, hop], fun s t w hsame ht hstack => ?_⟩
  simp only [terminate, hop]
  rfl

variable (fuel ord) in
theorem does_terminator (h : Built module fn) {init : List Inst} (hb : fn.blocks[b]? = some block)
    (hinsts : block.insts = init ++ [inst]) (hterm : isTerminator inst.op = true)
    (hgood : Dispatchable fn inst) :
    ∃ code, emitInst module fn (assignLocals module fn true) b inst = some code ∧
      Does ord fuel b inst code := by
  have hcheck := h.checkInst_eq_nil hb
    (hinsts ▸ List.mem_append_right init (List.mem_singleton_self inst))
  cases hop : inst.op with
  | jump => exact does_jump (h.jumpAt hb hinsts hop) (hgood.1 hop)
  | branch => exact does_branch hop hcheck
  | switch => exact does_switch hop (hgood.2 hop) hcheck
  | ret => exact does_ret hop hcheck
  | unreachable => exact does_unreachable hop
  | _ => rw [hop] at hterm; cases hterm

/-! ## Blocks -/

theorem emitInst_ordinary (hterm : ¬isTerminator inst.op = true) :
    emitInst module fn l b inst = some [.other inst] := by
  rw [emitInst]
  cases hop : inst.op <;> first | rfl | (rw [hop] at hterm; exact absurd rfl hterm)

theorem emitBlock_eq {init : List Inst} {code : List Ctrl} (hb : fn.blocks[b]? = some block)
    (hinsts : block.insts = init ++ [inst]) (hinit : ∀ i ∈ init, ¬isTerminator i.op = true)
    (hcode : emitInst module fn l b inst = some code) :
    emitBlock module fn l b = some (init.map .other ++ code) := by
  have hothers : init.mapM (emitInst module fn l b) = some (init.map fun i => [.other i]) :=
    mapM_eq_some fun i hi => emitInst_ordinary (hinit i hi)
  rw [emitBlock, List.getD_eq_getElem?_getD, hb, Option.getD_some, hinsts, List.mapM_append,
    hothers]
  have hflat : (init.map fun i => [Ctrl.other i]).flatten = init.map .other := by
    rw [← List.flatMap_def, List.map_eq_flatMap]
  simp [hcode, hflat]

variable (fuel ord) in
/-- The instructions before the terminator. -/
theorem runs_ordinary {init : List Inst} (hinit : ∀ i ∈ init, ¬isTerminator i.op = true)
    (hterm : isTerminator inst.op = true) (code : List Ctrl) (w : W)
    (hsame : (assignLocals module fn true).Same (stateIndex module fn) s t)
    (ht : (assignLocals module fn true).Typed t) (hstack : s.stack = []) :
    (runInsts fn ord (init ++ [inst]) (s, w) = .inr .trap ∧
        Ctrl.runAll ord fuel (init.map .other ++ code) (t, w) = .done .trap) ∨
      ∃ s' t' w', (assignLocals module fn true).Same (stateIndex module fn) s' t' ∧
        (assignLocals module fn true).Typed t' ∧ s'.stack = [] ∧
        runInsts fn ord (init ++ [inst]) (s, w) =
          terminate fn (assignLocals module fn true) inst (s', w') ∧
        Ctrl.runAll ord fuel (init.map .other ++ code) (t, w) =
          Ctrl.runAll ord fuel code (t', w') := by
  induction init generalizing s t w with
  | nil => exact .inr ⟨s, t, w, hsame, ht, hstack, if_pos hterm, rfl⟩
  | cons i init ih =>
    rw [List.cons_append, runInsts, if_neg (hinit i List.mem_cons_self), List.map_cons,
      List.cons_append, Ctrl.runAll, Ctrl.run]
    cases hexec : ord.exec i (s, w) with
    | none =>
      rw [ord.trap i s t w hsame hexec]
      exact .inl ⟨rfl, rfl⟩
    | some y =>
      obtain ⟨s', w'⟩ := y
      obtain ⟨t', hexec', hsame'⟩ := ord.blind i s t w s' w' hsame hexec
      rw [hexec']
      exact ih (fun i hi => hinit i (List.mem_cons_of_mem _ hi)) w' hsame'
        (ord.typed i t w t' w' hexec' ht) ((ord.stack i s w s' w' hexec).trans hstack)

variable (fuel ord) in
/-- The code of a block goes where the function goes from its entry. -/
theorem runs_block (h : Built module fn)
    (hgood : ∀ block ∈ fn.blocks, ∀ inst ∈ block.insts, Dispatchable fn inst)
    (hb : b < fn.blocks.length) :
    ∃ code, emitBlock module fn (assignLocals module fn true) b = some code ∧
      ∀ s t w, (assignLocals module fn true).Same (stateIndex module fn) s t →
        (assignLocals module fn true).Typed t → s.stack = [] →
        match mirStep fn ord (b, s, w) with
        | .inl c => c.1 < fn.blocks.length ∧ c.2.1.stack = [] ∧
          BackTo (assignLocals module fn true) (stateIndex module fn) (loopDepth fn b 0) c
            (Ctrl.runAll ord fuel code (t, w))
        | .inr exit => Ctrl.runAll ord fuel code (t, w) = .done exit.toEnd := by
  have hblock := List.getElem?_eq_getElem hb
  obtain ⟨init, inst, hinsts, hterm, hinit⟩ := h.accepted.exists_terminator hblock
  obtain ⟨code, hcode, hdoes⟩ := does_terminator fuel ord h hblock hinsts hterm
    (hgood _ (List.getElem_mem hb) inst (hinsts ▸ List.mem_append_right init
      (List.mem_singleton_self inst)))
  refine ⟨_, emitBlock_eq hblock hinsts hinit hcode, fun s t w hsame ht hstack => ?_⟩
  have hstep : mirStep fn ord (b, s, w) = runInsts fn ord (init ++ [inst]) (s, w) := by
    rw [mirStep, List.getD_eq_getElem?_getD, hblock, Option.getD_some, hinsts]
  rw [hstep]
  rcases runs_ordinary fuel ord hinit hterm code w hsame ht hstack with
    ⟨htrap, hrun⟩ | ⟨s', t', w', hsame', ht', hstack', hmir, hrun⟩
  · rw [htrap]
    exact hrun
  · rw [hmir, hrun]
    exact hdoes s' t' w' hsame' ht' hstack'

/-! ## The loop -/

/-- The nest of blocks is one of landing pads. -/
theorem runAll_landingPads (code : BlockId → List Ctrl) (k : Nat) {x : State × W}
    (hx : x.1.stack = []) :
    Ctrl.runAll ord fuel (landingPads module fn code k) x =
      Labels.landing (withStack [])
        (Ctrl.runAll ord fuel
          [.op (.localGet (stateIndex module fn)), .brTable (List.range fn.blocks.length) 0])
        (fun b => Ctrl.runAll ord fuel (code b)) k x := by
  induction k generalizing x with
  | zero => rfl
  | succ k ih =>
    rw [landingPads, Ctrl.runAll, Ctrl.run, ih rfl, hx]
    rfl

theorem withStack_nil {x : State × W} (hx : x.1.stack = []) : withStack [] x = x := by
  obtain ⟨⟨stack, locals⟩, w⟩ := x
  obtain rfl : stack = [] := hx
  rfl

variable (fuel ord) in
/-- The jump table leads to the block in the state local. -/
theorem runAll_table {c : BlockId × State × W} {x : State × W} (hblocks : fn.blocks.length ≤ 2 ^ 32)
    (hat : AtBlock (assignLocals module fn true) (stateIndex module fn) fn c x) :
    Ctrl.runAll ord fuel
      [.op (.localGet (stateIndex module fn)), .brTable (List.range fn.blocks.length) 0] x =
      .br c.1 x := by
  have hlt := hat.lt
  have hindex : (BitVec.ofNat 32 c.1).toNat = c.1 := by
    rw [BitVec.toNat_ofNat, Nat.mod_eq_of_lt (lt_of_lt_of_le hlt hblocks)]
  have hdepth : (List.range fn.blocks.length).getD c.1 0 = c.1 := by
    rw [List.getD_eq_getElem?_getD, List.getElem?_range hlt, Option.getD_some]
  have hclear := withStack_nil hat.stack
  simp only [Ctrl.runAll, Ctrl.run, Instr.run, Outcome.then, Labels.Flow.andThen, State.push,
    hat.block, hindex, hdepth, hat.stack]
  exact congrArg (Labels.Flow.br c.1) hclear

variable (fuel ord) in
/-- One turn of the loop is what the function does from the entry of one block to the next. -/
theorem turn {code : BlockId → List Ctrl} (h : Built module fn)
    (hgood : ∀ block ∈ fn.blocks, ∀ inst ∈ block.insts, Dispatchable fn inst)
    (hcode : ∀ b < fn.blocks.length,
      emitBlock module fn (assignLocals module fn true) b = some (code b))
    {c : BlockId × State × W} {x : State × W}
    (hat : AtBlock (assignLocals module fn true) (stateIndex module fn) fn c x) :
    match mirStep fn ord c with
    | .inl c' => ∃ y,
      Ctrl.runAll ord fuel (landingPads module fn code fn.blocks.length) x = .br 0 y ∧
      AtBlock (assignLocals module fn true) (stateIndex module fn) fn c' (withStack [] y)
    | .inr exit => Ctrl.runAll ord fuel (landingPads module fn code fn.blocks.length) x =
      .done exit.toEnd := by
  obtain ⟨b, s, w⟩ := c
  obtain ⟨t, w'⟩ := x
  obtain rfl : w' = w := hat.world
  obtain ⟨code', hcode', hruns⟩ := runs_block fuel ord h hgood hat.lt
  obtain rfl : code b = code' := Option.some.inj ((hcode b hat.lt).symm.trans hcode')
  have hstack : s.stack = [] := hat.same.stack.symm.trans hat.stack
  have hrun := hruns s t w' hat.same hat.typed hstack
  have htable := runAll_table fuel ord h.blocks hat
  have hclear := withStack_nil hat.stack
  rw [runAll_landingPads code _ hat.stack]
  cases hstep : mirStep fn ord (b, s, w') with
  | inl c' =>
    rw [hstep] at hrun
    obtain ⟨hlt, hempty, u, hflow, hstate, htyped, hseen⟩ := hrun
    refine ⟨(u, c'.2.2), ?_, hlt, hstate, ⟨hempty.symm, hseen⟩, rfl, htyped, rfl⟩
    refine Labels.landing_br hclear htable hat.lt ?_
    rw [hclear]
    exact hflow
  | inr exit =>
    rw [hstep] at hrun
    refine Labels.landing_done hclear htable hat.lt ?_
    rw [hclear]
    exact hrun

/-- The code of a function whose blocks all have code. -/
theorem dispatchLoop_eq (h : ∀ b < fn.blocks.length,
      ∃ code, emitBlock module fn (assignLocals module fn true) b = some code) :
    ∃ code, dispatchLoop module fn =
        some [.loop (landingPads module fn code fn.blocks.length), .unreachable] ∧
      ∀ b < fn.blocks.length,
        emitBlock module fn (assignLocals module fn true) b = some (code b) := by
  have hcode : ∀ b < fn.blocks.length, emitBlock module fn (assignLocals module fn true) b =
      some ((emitBlock module fn (assignLocals module fn true) b).getD []) := fun b hb => by
    obtain ⟨code, hcode⟩ := h b hb
    rw [hcode, Option.getD_some]
  have hblocks := mapM_eq_some fun b (hb : b ∈ List.range fn.blocks.length) =>
    hcode b (List.mem_range.1 hb)
  refine ⟨_, by rw [dispatchLoop, hblocks]; rfl, fun b hb => ?_⟩
  rw [hcode b hb, List.getD_eq_getElem?_getD, List.getElem?_map, List.getElem?_range hb]
  rfl

/-- The dispatch loop of a function all of whose terminators have code. -/
theorem faithful_of_dispatchable (h : Built module fn)
    (hgood : ∀ block ∈ fn.blocks, ∀ inst ∈ block.insts, Dispatchable fn inst) :
    DispatchFaithful module fn := by
  have hblock : ∀ b < fn.blocks.length,
      ∃ code, emitBlock module fn (assignLocals module fn true) b = some code := fun b hb => by
    obtain ⟨code, hcode, -⟩ := runs_block 0 (idle _ _) h hgood hb
    exact ⟨code, hcode⟩
  obtain ⟨code, hloop, hcode⟩ := dispatchLoop_eq hblock
  refine ⟨_, hloop, fun W ord c x hat fuel => ?_⟩
  rw [Ctrl.runAll, Ctrl.run, withStack_nil hat.stack]
  refine Labels.Agrees.andThen (Labels.loop_agrees ?_ ?_ fuel hat) _
  · intro c x c' hat hstep
    have hturn := turn fuel ord h hgood hcode hat
    rw [hstep] at hturn
    exact hturn
  · intro c x exit hat hstep
    have hturn := turn fuel ord h hgood hcode hat
    rw [hstep] at hturn
    exact ⟨_, hturn, rfl⟩

/-! ## The terminators without code -/

/-- Every block of a function with a dispatch loop has code. -/
theorem emitBlock_of_dispatchLoop {code : List Ctrl} (h : dispatchLoop module fn = some code)
    (hb : b < fn.blocks.length) :
    ∃ c, emitBlock module fn (assignLocals module fn true) b = some c := by
  refine Option.ne_none_iff_exists'.mp fun hnone => ?_
  have hblocks := mapM_eq_none (List.mem_range.2 hb) hnone
  rw [dispatchLoop, hblocks] at h
  cases h

/-- A state at the entry of a block. -/
def stateAt (module : Module) (fn : Function) (b : BlockId) : State where
  stack := []
  locals i :=
    if i = stateIndex module fn then .i32 (BitVec.ofNat 32 b)
    else match (assignLocals module fn true).types.getD i .i32 with
      | .i32 => .i32 0
      | .i64 => .i64 0
      | .f32 => .f32 0
      | .f64 => .f64 0

theorem stateAt_typed (module : Module) (fn : Function) (b : BlockId) :
    (assignLocals module fn true).Typed (stateAt module fn b) := by
  intro i type hi
  show Val.type (if i = stateIndex module fn then _ else _) = type
  split_ifs with heq
  · rw [heq, (stateIndex_own module fn).type] at hi
    exact Option.some.inj hi
  · rw [List.getD_eq_getElem?_getD, hi, Option.getD_some]
    cases type <;> rfl

theorem atBlock_stateAt (module : Module) (hb : b < fn.blocks.length) :
    AtBlock (assignLocals module fn true) (stateIndex module fn) fn
      (b, stateAt module fn b, ()) (stateAt module fn b, ()) where
  lt := hb
  block := if_pos rfl
  same := ⟨rfl, fun _ _ => rfl⟩
  world := rfl
  typed := stateAt_typed module fn b
  stack := rfl

/-- A switch on a float is rejected by the validator. -/
theorem runAll_float_switch {a : ValueId} (hfloat : isFloat (fn.valueType a) = true)
    (hx : (l.get (.home a) t).type = valType (fn.valueType a)) {ord : Ordinary l state W}
    (value target : Nat) (args : List Nat) (rest : List Ctrl) :
    Ctrl.runAll ord fuel (dispatchPairs module fn l b a (value :: target :: args) ++ rest) (t, w) =
      .done .invalid := by
  have hnarrow : isI64Class (fn.valueType a) = false := by
    cases htype : fn.valueType a <;> first | rfl | (rw [htype] at hfloat; cases hfloat)
  have hinvalid : run (switchCompare (isI64Class (fn.valueType a)) (l.index (.home a)) value) t =
      .invalid := by
    rw [hnarrow, switchCompare, if_neg (by simp), run_get, run_const32, run_cons]
    rw [Locals.get] at hx
    cases htype : fn.valueType a <;> first | (rw [htype] at hfloat; cases hfloat; done) | skip
    all_goals
      rw [htype] at hx
      cases hlocal : t.locals (l.index (.home a)) <;>
        first | rfl | (rw [hlocal] at hx; cases hx)
  rw [dispatchPairs, List.append_assoc, runAll_invalid hinvalid]

/-- Instructions that do nothing lead to the terminator. -/
theorem runs_idle (l : Locals) (state fuel : Nat) {init : List Inst}
    (hinit : ∀ i ∈ init, ¬isTerminator i.op = true) (hterm : isTerminator inst.op = true)
    (code : List Ctrl) (x : State × Unit) :
    runInsts fn (idle l state) (init ++ [inst]) x = terminate fn l inst x ∧
      Ctrl.runAll (idle l state) fuel (init.map .other ++ code) x =
        Ctrl.runAll (idle l state) fuel code x := by
  induction init with
  | nil => exact ⟨if_pos hterm, rfl⟩
  | cons i init ih =>
    obtain ⟨hmir, hwasm⟩ := ih fun i hi => hinit i (List.mem_cons_of_mem _ hi)
    refine ⟨?_, hwasm⟩
    rw [List.cons_append, runInsts, if_neg (hinit i List.mem_cons_self)]
    exact hmir

/-- Where the code of a block is invalid the loop is not faithful. -/
theorem not_faithful_of_invalid (h : Built module fn) {code : List Ctrl} (hb : b < fn.blocks.length)
    (hcode : emitBlock module fn (assignLocals module fn true) b = some code)
    (hmir : ∃ c, mirStep fn (idle (assignLocals module fn true) (stateIndex module fn))
      (b, stateAt module fn b, ()) = .inl c)
    (hinvalid : Ctrl.runAll (idle (assignLocals module fn true) (stateIndex module fn)) 1 code
      (stateAt module fn b, ()) = .done .invalid) : ¬DispatchFaithful module fn := by
  rintro ⟨loop, hloop, hruns⟩
  obtain ⟨c, hmir⟩ := hmir
  obtain ⟨blocks, hloop', hblocks⟩ :=
    dispatchLoop_eq fun b hb => emitBlock_of_dispatchLoop hloop hb
  obtain rfl := Option.some.inj (hloop.symm.trans hloop')
  obtain rfl : blocks b = code := Option.some.inj ((hblocks b hb).symm.trans hcode)
  have hat := atBlock_stateAt module hb
  have hclear := withStack_nil hat.stack
  have hbody : Ctrl.runAll (idle (assignLocals module fn true) (stateIndex module fn)) 1
      (landingPads module fn blocks fn.blocks.length) (stateAt module fn b, ()) =
      .done .invalid := by
    rw [runAll_landingPads blocks _ rfl]
    refine Labels.landing_done hclear (runAll_table _ _ h.blocks hat) hb ?_
    rw [hclear]
    exact hinvalid
  have hagrees := hruns Unit (idle _ _) _ _ hat 1
  rw [Ctrl.runAll, Ctrl.run, hclear, Labels.loop, hbody, Labels.steps, hmir] at hagrees
  obtain ⟨x, hflow, -⟩ := hagrees
  cases hflow

/-- A jump of a function with a dispatch loop passes no arguments to the first block. -/
theorem first_of_faithful (h : Built module fn) (hfaithful : DispatchFaithful module fn)
    {init : List Inst} (hb : fn.blocks[b]? = some block) (hinsts : block.insts = init ++ [inst])
    (hop : inst.op = .jump) : inst.a ≠ 0 ∨ inst.args = [] := by
  by_contra hnot
  obtain ⟨hzero, hargs⟩ := not_or.1 hnot
  have hnone : emitInst module fn (assignLocals module fn true) b inst = none := by
    rw [emitInst, hop]
    show Option.map _ _ = none
    rw [transferBlockArgs_first (h.jumpAt hb hinsts hop) (not_not.1 hzero) hargs, Option.map_none]
  have hinst : inst ∈ block.insts :=
    hinsts ▸ List.mem_append_right init (List.mem_singleton_self inst)
  obtain ⟨loop, hloop, -⟩ := hfaithful
  obtain ⟨code, hcode⟩ := emitBlock_of_dispatchLoop hloop (List.getElem?_eq_some_iff.1 hb).1
  rw [emitBlock, List.getD_eq_getElem?_getD, hb, Option.getD_some,
    mapM_eq_none hinst hnone] at hcode
  cases hcode

/-- A switch with cases of a function with a faithful dispatch loop is not on a float. -/
theorem not_float_of_faithful (h : Built module fn) (hfaithful : DispatchFaithful module fn)
    {init : List Inst} (hb : fn.blocks[b]? = some block) (hinsts : block.insts = init ++ [inst])
    (hinit : ∀ i ∈ init, ¬isTerminator i.op = true) (hop : inst.op = .switch)
    (hargs : inst.args ≠ []) : isFloat (fn.valueType inst.a) = false := by
  rw [← Bool.not_eq_true]
  intro hfloat
  obtain ⟨sig, loc, hcheck⟩ := h.checkInst_eq_nil hb
    (hinsts ▸ List.mem_append_right init (List.mem_singleton_self inst))
  simp only [Verifier.checkInst, hop, List.append_eq_nil_iff, Verifier.checkOperand_eq_nil]
    at hcheck
  obtain ⟨⟨hok, -⟩, hpairs⟩ := hcheck
  split_ifs at hpairs with hodd
  obtain ⟨value, target, args, heq⟩ : ∃ value target args, inst.args = value :: target :: args := by
    rcases hlist : inst.args with _ | ⟨value, _ | ⟨target, args⟩⟩
    · exact absurd hlist hargs
    · rw [hlist] at hodd
      exact absurd rfl hodd
    · exact ⟨value, target, args, rfl⟩
  have htype := (stateAt_typed module fn b).get (assignLocals_ok module fn true)
    (home_of_valueOk module hok)
  have hcode : emitBlock module fn (assignLocals module fn true) b = _ :=
    emitBlock_eq hb hinsts hinit (by rw [emitInst, hop])
  obtain ⟨hmir, hwasm⟩ := runs_idle (assignLocals module fn true) (stateIndex module fn) 1 hinit
    (by rw [hop]; rfl) (dispatchPairs module fn (assignLocals module fn true) b inst.a inst.args ++
      dispatchGoto module fn b 0 inst.b) (stateAt module fn b, ())
  refine not_faithful_of_invalid h (List.getElem?_eq_some_iff.1 hb).1 hcode ?_ ?_ hfaithful
  · rw [mirStep, List.getD_eq_getElem?_getD, hb, Option.getD_some, hinsts, hmir, terminate, hop]
    exact ⟨_, rfl⟩
  · rw [hwasm, heq]
    exact runAll_float_switch hfloat htype value target args _

end

instance (fn : Function) (inst : Inst) : Decidable (Dispatchable fn inst) :=
  inferInstanceAs (Decidable (_ ∧ _))

/-- Two blocks that lead to each other, both entered from the first, and a last block. -/
def twoEntries (last : Inst) : Function where
  hasBody := true
  params := [0]
  values := [{ type := .i32 }, { type := .i1 }]
  blocks := [
    { params := [0]
      insts := [{ op := .constInt, type := .i1, result := 1 },
        { op := .branch, a := 1, b := 1, c := 2 }] },
    { insts := [{ op := .jump, a := 2 }] },
    { insts := [{ op := .branch, a := 1, b := 1, c := 3 }] },
    { insts := [last] }]

def twoEntriesModule : Module := { signatures := [{ params := [.i32] }] }

end Mirage.Wasm
