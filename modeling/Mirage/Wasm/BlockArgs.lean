import Mirage.Lib.Staging
import Mirage.Mir.Jump
import Mirage.Wasm.EmitInt

/-!
# Block arguments in WebAssembly

Every value of a function gets a local of its own, and every parameter of a block another
one for staging, except for the parameters of the first block: these are the parameters of
the WebAssembly function, and nothing is expected to jump there (`assignLocals`). Locals
go by their index here. A jump copies its arguments into the staging locals, and these
into the locals of the parameters (`transferBlockArgs`).

* `Locals.Ok`: no two places share a local, and a local has the type of its value.
* `staged_iff`: which parameters have a staging local.
* `run_transfer`: the code of a jump assigns the arguments at once, when all parameters
  of the target are staged; otherwise the backend ends with an exception.
-/

namespace Mirage.Wasm

open Staging

variable {fn : Function} {v p : ValueId} {k k' : Place ValueId} {i : Nat}

/-- The value a place is for. -/
def placed : Place ValueId → ValueId
  | .home v => v
  | .staging v => v

/-! ## Locals -/

/-- The types of the locals, the parameters first, and which of them are `value_local` and
    `staging_local` of a value. -/
structure Locals where
  types : List ValType := []
  localOf : Place ValueId → Option Nat := fun _ => none

namespace Locals

/-- The next local is for the place. -/
def give (fn : Function) (l : Locals) : Place ValueId → Locals
  | .home v =>
    { types := l.types ++ [valType (fn.valueType v)]
      localOf := fun
        | .home w => if w = v then some l.types.length else l.localOf (.home w)
        | .staging w => l.localOf (.staging w) }
  | .staging v =>
    { types := l.types ++ [valType (fn.valueType v)]
      localOf := fun
        | .home w => l.localOf (.home w)
        | .staging w => if w = v then some l.types.length else l.localOf (.staging w) }

/-- A local for a value that has none. -/
def giveValue (fn : Function) (l : Locals) (v : ValueId) : Locals :=
  if l.localOf (.home v) = none then l.give fn (.home v) else l

/-- Locals of the backend's own. -/
def own (l : Locals) (count : Nat) : Locals :=
  { l with types := l.types ++ List.replicate count .i32 }

end Locals

/-- The size of the frame of slots, each aligned. -/
def frameSize (fn : Function) : Nat :=
  let offset := fn.slots.foldl (fun offset slot =>
    (offset + max 1 slot.align - 1) / max 1 slot.align * max 1 slot.align + max 1 slot.size) 0
  (offset + 15) / 16 * 16

def hasStackAlloc (fn : Function) : Bool :=
  fn.blocks.any fun block => block.insts.any fun inst => inst.op == .stackAlloc

/-- A call of a variadic function that has no body here. -/
def hasVariadicCall (module : Module) (fn : Function) : Bool :=
  fn.blocks.any fun block => block.insts.any fun inst =>
    let callee := module.functions.getD inst.a {}
    match inst.op with
    | .call => (module.signatures.getD callee.signature {}).isVariadic && !callee.hasBody
    | .callIndirect => (module.signatures.getD inst.b {}).isVariadic
    | _ => false

/-- The locals of a function: its parameters, the backend's own ones for the frame, for
    variadic calls and for the dispatch loop, the other values, and staging. -/
def assignLocals (module : Module) (fn : Function) (useDispatch : Bool) : Locals :=
  let needsFrame := frameSize fn > 0 || hasStackAlloc fn
  let params := fn.params.foldl (fun l p => Locals.give fn l (.home p)) {}
  let own := params.own ((if needsFrame then 2 else 0) +
    (if hasVariadicCall module fn then 2 else 0) + if useDispatch then 1 else 0)
  let values := (List.range fn.values.length).foldl (Locals.giveValue fn) own
  -- the parameters of the first block are left out
  ((fn.blocks.drop 1).flatMap Block.params).foldl (fun l p => Locals.give fn l (.staging p)) values

/-! ## What locals are good for -/

/-- No two places share a local, and a local has the type of its value. -/
structure Locals.Ok (fn : Function) (l : Locals) : Prop where
  types : ∀ k i, l.localOf k = some i → l.types[i]? = some (valType (fn.valueType (placed k)))
  inj : ∀ k k' i, l.localOf k = some i → l.localOf k' = some i → k = k'

namespace Locals

variable {l : Locals}

theorem give_types (k : Place ValueId) :
    (l.give fn k).types = l.types ++ [valType (fn.valueType (placed k))] := by
  cases k <;> rfl

theorem localOf_give (fn : Function) (l : Locals) (k k' : Place ValueId) :
    k' = k ∧ (l.give fn k).localOf k' = some l.types.length ∨
      k' ≠ k ∧ (l.give fn k).localOf k' = l.localOf k' := by
  rcases k with v | v <;> rcases k' with w | w
  · by_cases h : w = v
    · exact .inl ⟨h ▸ rfl, if_pos h⟩
    · exact .inr ⟨fun heq => h (Place.home.inj heq), if_neg h⟩
  · exact .inr ⟨by simp, rfl⟩
  · exact .inr ⟨by simp, rfl⟩
  · by_cases h : w = v
    · exact .inl ⟨h ▸ rfl, if_pos h⟩
    · exact .inr ⟨fun heq => h (Place.staging.inj heq), if_neg h⟩

theorem Ok.lt (h : l.Ok fn) (hk : l.localOf k = some i) : i < l.types.length :=
  (List.getElem?_eq_some_iff.mp (h.types k i hk)).1

/-- A local of its own for one more place. -/
theorem Ok.give (h : l.Ok fn) (k : Place ValueId) : (l.give fn k).Ok fn := by
  refine ⟨fun k' i hk' => ?_, fun k₁ k₂ i h₁ h₂ => ?_⟩
  · rw [give_types]
    rcases l.localOf_give fn k k' with ⟨rfl, hnew⟩ | ⟨-, hold⟩
    · obtain rfl : l.types.length = i := Option.some.inj (hnew.symm.trans hk')
      simp
    · rw [hold] at hk'
      rw [List.getElem?_append_left (h.lt hk'), h.types k' i hk']
  · rcases l.localOf_give fn k k₁ with ⟨heq₁, hnew₁⟩ | ⟨-, hold₁⟩ <;>
      rcases l.localOf_give fn k k₂ with ⟨heq₂, hnew₂⟩ | ⟨-, hold₂⟩
    · rw [heq₁, heq₂]
    · -- the new local is none of the old ones
      have := h.lt (hold₂.symm.trans h₂)
      have := Option.some.inj (hnew₁.symm.trans h₁)
      omega
    · have := h.lt (hold₁.symm.trans h₁)
      have := Option.some.inj (hnew₂.symm.trans h₂)
      omega
    · exact h.inj k₁ k₂ i (hold₁.symm.trans h₁) (hold₂.symm.trans h₂)

theorem Ok.own (h : l.Ok fn) (count : Nat) : (l.own count).Ok fn where
  types := fun k i hk => by
    rw [Locals.own, List.getElem?_append_left (h.lt hk)]
    exact h.types k i hk
  inj := h.inj

theorem Ok.giveValue (h : l.Ok fn) (v : ValueId) : (l.giveValue fn v).Ok fn := by
  rw [Locals.giveValue]
  split_ifs
  · exact h.give (.home v)
  · exact h

theorem Ok.foldl {α : Type*} {step : Locals → α → Locals}
    (hstep : ∀ l a, l.Ok fn → (step l a).Ok fn) (as : List α) (h : l.Ok fn) :
    (as.foldl step l).Ok fn := by
  induction as generalizing l with
  | nil => exact h
  | cons a as ih => exact ih (hstep l a h)

theorem give_ne_none (l : Locals) (k k' : Place ValueId) :
    (l.give fn k).localOf k' ≠ none ↔ k' = k ∨ l.localOf k' ≠ none := by
  rcases l.localOf_give fn k k' with ⟨rfl, hnew⟩ | ⟨hne, hold⟩
  · rw [hnew]
    simp
  · rw [hold]
    simp [hne]

theorem giveValue_ne_none (l : Locals) (v : ValueId) (k : Place ValueId) :
    (l.giveValue fn v).localOf k ≠ none ↔ k = .home v ∨ l.localOf k ≠ none := by
  rw [giveValue]
  split_ifs with h
  · exact l.give_ne_none (.home v) k
  · refine ⟨.inr, ?_⟩
    rintro (rfl | hk)
    · exact h
    · exact hk

/-- Which places have a local after each step has given one to a place. -/
theorem foldl_ne_none {α : Type*} {step : Locals → α → Locals} {place : α → Place ValueId}
    (hstep : ∀ l a k, (step l a).localOf k ≠ none ↔ k = place a ∨ l.localOf k ≠ none)
    (as : List α) (l : Locals) (k : Place ValueId) :
    (as.foldl step l).localOf k ≠ none ↔ (∃ a ∈ as, k = place a) ∨ l.localOf k ≠ none := by
  induction as generalizing l with
  | nil => simp
  | cons a as ih =>
    rw [List.foldl_cons, ih, hstep, List.exists_mem_cons_iff, or_left_comm, or_assoc]

end Locals

theorem assignLocals_ok (module : Module) (fn : Function) (useDispatch : Bool) :
    (assignLocals module fn useDispatch).Ok fn := by
  have hempty : ({} : Locals).Ok fn :=
    ⟨fun k i hk => absurd hk (by simp), fun k k' i hk => absurd hk (by simp)⟩
  have hparams := hempty.foldl (fun l p h => h.give (.home p)) fn.params
  exact ((hparams.own _).foldl (fun l v h => h.giveValue v) _).foldl
    (fun l p h => h.give (.staging p)) _

/-- Every value has a local. -/
theorem home_ne_none (module : Module) (useDispatch : Bool) (hv : v < fn.values.length) :
    (assignLocals module fn useDispatch).localOf (.home v) ≠ none := by
  refine (Locals.foldl_ne_none (fun l p k => l.give_ne_none (.staging p) k) _ _ _).mpr (.inr ?_)
  refine (Locals.foldl_ne_none (fun l v k => l.giveValue_ne_none v k) _ _ _).mpr (.inl ?_)
  exact ⟨v, List.mem_range.mpr hv, rfl⟩

/-- The parameters of all blocks but the first have a staging local. -/
theorem staging_ne_none_iff (module : Module) (useDispatch : Bool) :
    (assignLocals module fn useDispatch).localOf (.staging p) ≠ none ↔
      ∃ block ∈ fn.blocks.drop 1, p ∈ block.params := by
  rw [assignLocals, Locals.foldl_ne_none (fun l p k => l.give_ne_none (.staging p) k),
    Locals.foldl_ne_none (fun l v k => l.giveValue_ne_none v k)]
  simp only [Locals.own]
  rw [Locals.foldl_ne_none (fun l p k => l.give_ne_none (.home p) k)]
  simp

/-! ## Jumps -/

variable {l : Locals} {s t : State}

/-- `local.get` and `local.set` of the place of a value. -/
def Locals.index (l : Locals) (k : Place ValueId) : Nat := (l.localOf k).getD 4294967295

/-- An argument into the staging local of its parameter. -/
def Locals.stage (l : Locals) (arg param : ValueId) : Option (List Instr) :=
  (l.localOf (.staging param)).map fun staging => [.localGet (l.index (.home arg)), .localSet staging]

def Locals.unstage (l : Locals) (param : ValueId) : Option (List Instr) :=
  (l.localOf (.staging param)).map fun staging =>
    [.localGet staging, .localSet (l.index (.home param))]

/-- All arguments into staging, then all parameters out of it. Where a parameter is not
    staged the lookup throws. -/
def transferBlockArgs (fn : Function) (l : Locals) (target : BlockId) (args : List ValueId) :
    Option (List Instr) := do
  let pairs := args.zip (fn.blocks.getD target {}).params
  let into ← pairs.mapM fun (arg, param) => l.stage arg param
  let out ← pairs.mapM fun (_, param) => l.unstage param
  return into.flatten ++ out.flatten

/-- The locals have their types. -/
def Locals.Typed (l : Locals) (s : State) : Prop :=
  ∀ i type, l.types[i]? = some type → (s.locals i).type = type

/-- What the local of a place holds. -/
def Locals.get (l : Locals) (k : Place ValueId) (s : State) : Val := s.locals (l.index k)

/-- One copy, between two places of the same type. -/
theorem run_copy (h : l.Ok fn) (hs : l.Typed s) {src dst : Place ValueId}
    (hsrc : l.localOf src ≠ none) (hdst : l.localOf dst ≠ none)
    (htype : fn.valueType (placed src) = fn.valueType (placed dst)) :
    ∃ t, run [.localGet (l.index src), .localSet (l.index dst)] s = .ok t ∧
      l.Typed t ∧ t.stack = s.stack ∧ Copied l.get {k | l.localOf k ≠ none} src dst s t := by
  obtain ⟨i, hi⟩ := Option.ne_none_iff_exists'.mp hsrc
  obtain ⟨j, hj⟩ := Option.ne_none_iff_exists'.mp hdst
  have hindex : l.index src = i := by rw [Locals.index, hi, Option.getD_some]
  have hindex' : l.index dst = j := by rw [Locals.index, hj, Option.getD_some]
  have htyped : (s.locals j).type = (s.locals i).type := by
    rw [hs j _ (h.types dst j hj), hs i _ (h.types src i hi), htype]
  refine ⟨s.setLocal j (s.locals i), ?_, fun n type hn => ?_, rfl, ?_, fun k hk hne => ?_⟩
  · rw [hindex, hindex', run_get]
    exact run_set htyped
  · show (if n = j then s.locals i else s.locals n).type = type
    split_ifs with hnj
    · rw [← htyped, ← hnj]
      exact hs n type hn
    · exact hs n type hn
  · show (if l.index dst = j then s.locals i else _) = s.locals (l.index src)
    rw [if_pos hindex', hindex]
  · obtain ⟨n, hn⟩ := Option.ne_none_iff_exists'.mp hk
    have hindexk : l.index k = n := by rw [Locals.index, hn, Option.getD_some]
    show (if l.index k = j then s.locals i else s.locals (l.index k)) = s.locals (l.index k)
    rw [if_neg]
    -- another place has another local
    exact fun heq => hne (h.inj k dst j (by rw [hn, ← hindexk, heq]) hj)

/-- A sequence of copies between places of the same type. -/
theorem run_copies (h : l.Ok fn) (copies : List (Place ValueId × Place ValueId))
    (hcopies : ∀ q ∈ copies, l.localOf q.1 ≠ none ∧ l.localOf q.2 ≠ none ∧
      fn.valueType (placed q.1) = fn.valueType (placed q.2)) (hs : l.Typed s) :
    ∃ t, run (copies.flatMap fun q => [.localGet (l.index q.1), .localSet (l.index q.2)]) s = .ok t ∧
      l.Typed t ∧ t.stack = s.stack ∧ Moved l.get {k | l.localOf k ≠ none} copies s t := by
  induction copies generalizing s with
  | nil => exact ⟨s, rfl, hs, rfl, rfl⟩
  | cons q copies ih =>
    obtain ⟨hsrc, hdst, htype⟩ := hcopies q List.mem_cons_self
    obtain ⟨u, hrun, hu, hstack, hcopied⟩ := run_copy h hs hsrc hdst htype
    obtain ⟨t, hrun', ht, hstack', hmoved⟩ :=
      ih (fun q hq => hcopies q (List.mem_cons_of_mem _ hq)) hu
    refine ⟨t, ?_, ht, hstack'.trans hstack, u, hcopied, hmoved⟩
    rw [List.flatMap_cons, run_append, hrun]
    exact hrun'

theorem mapM_eq_some {α β : Type*} {f : α → Option β} {g : α → β} {as : List α}
    (h : ∀ a ∈ as, f a = some (g a)) : as.mapM f = some (as.map g) := by
  induction as with
  | nil => rfl
  | cons a as ih =>
    rw [List.mapM_cons, h a List.mem_cons_self, ih fun a ha => h a (List.mem_cons_of_mem _ ha)]
    rfl

theorem mapM_eq_none {α β : Type*} {f : α → Option β} {as : List α} {a : α} (ha : a ∈ as)
    (h : f a = none) : as.mapM f = none := by
  induction as with
  | nil => exact absurd ha List.not_mem_nil
  | cons a' as ih =>
    rw [List.mapM_cons]
    rcases List.mem_cons.mp ha with rfl | ha
    · rw [h]
      rfl
    · rw [ih ha]
      cases f a' <;> rfl

/-- The code of the copies, when all parameters are staged. -/
theorem transferBlockArgs_eq_some {target : BlockId} {args : List ValueId}
    (h : ∀ q ∈ args.zip (fn.blocks.getD target {}).params, l.localOf (.staging q.2) ≠ none) :
    transferBlockArgs fn l target args = some
      (((intoStaging (args.zip (fn.blocks.getD target {}).params)).flatMap fun q =>
          [.localGet (l.index q.1), .localSet (l.index q.2)]) ++
        (outOfStaging (args.zip (fn.blocks.getD target {}).params)).flatMap fun q =>
          [.localGet (l.index q.1), .localSet (l.index q.2)]) := by
  rw [transferBlockArgs]
  generalize args.zip (fn.blocks.getD target {}).params = pairs at h ⊢
  have hindex : ∀ q ∈ pairs, l.localOf (.staging q.2) = some (l.index (.staging q.2)) :=
    fun q hq => by
      obtain ⟨i, hi⟩ := Option.ne_none_iff_exists'.mp (h q hq)
      rw [Locals.index, hi, Option.getD_some]
  have hstage : pairs.mapM (fun (arg, param) => l.stage arg param) = some (pairs.map fun q =>
      [.localGet (l.index (.home q.1)), .localSet (l.index (.staging q.2))]) :=
    mapM_eq_some fun q hq => congrArg (Option.map _) (hindex q hq)
  have hunstage : pairs.mapM (fun (_, param) => l.unstage param) = some (pairs.map fun q =>
      [.localGet (l.index (.staging q.2)), .localSet (l.index (.home q.2))]) :=
    mapM_eq_some fun q hq => congrArg (Option.map _) (hindex q hq)
  show ((pairs.mapM fun (arg, param) => l.stage arg param).bind fun into =>
    (pairs.mapM fun ((_, param) : ValueId × ValueId) => l.unstage param).bind fun out =>
      some (into.flatten ++ out.flatten)) = _
  rw [hstage, hunstage, Option.bind_some, Option.bind_some, intoStaging, outOfStaging,
    List.flatMap_map, List.flatMap_map, List.flatMap, List.flatMap]

/-- A parameter that is not staged. -/
theorem transferBlockArgs_eq_none {target : BlockId} {args : List ValueId}
    {q : ValueId × ValueId} (hq : q ∈ args.zip (fn.blocks.getD target {}).params)
    (h : l.localOf (.staging q.2) = none) : transferBlockArgs fn l target args = none := by
  have hstage : (args.zip (fn.blocks.getD target {}).params).mapM
      (fun (arg, param) => l.stage arg param) = none :=
    mapM_eq_none hq (congrArg (Option.map _) h)
  show (((args.zip (fn.blocks.getD target {}).params).mapM
    fun (arg, param) => l.stage arg param).bind fun _ => _) = none
  rw [hstage, Option.bind_none]

variable {module : Module} {b : BlockId} {block target : Block} {inst : Inst}

/-- The code of a jump passes its arguments at once: the local of every parameter holds
    what the local of its argument held, and the other values are unchanged. -/
def PassesArgs (module : Module) (fn : Function) (inst : Inst) : Prop :=
  ∀ useDispatch, ∃ code,
    transferBlockArgs fn (assignLocals module fn useDispatch) inst.a inst.args = some code ∧
    ∀ s, (assignLocals module fn useDispatch).Typed s → ∃ t, run code s = .ok t ∧
      (assignLocals module fn useDispatch).Typed t ∧ t.stack = s.stack ∧
      Parallel (assignLocals module fn useDispatch).get (argPairs fn inst)
        {v | v < fn.values.length} s t

theorem lt_of_valueOk (h : Verifier.valueOk fn v = true) : v < fn.values.length := by
  simp only [Verifier.valueOk, Bool.and_eq_true, decide_eq_true_eq] at h
  exact h.2

/-- When all parameters are staged, the arguments are passed at once. -/
theorem passesArgs_of_staged (h : JumpAt module fn b block inst target)
    (hstaged : ∀ useDispatch, ∀ q ∈ argPairs fn inst,
      (assignLocals module fn useDispatch).localOf (.staging q.2) ≠ none) :
    PassesArgs module fn inst := by
  intro useDispatch
  have hok := assignLocals_ok module fn useDispatch
  have hstage := hstaged useDispatch
  have hhome : ∀ v, v < fn.values.length →
      (assignLocals module fn useDispatch).localOf (.home v) ≠ none :=
    fun v hv => home_ne_none module useDispatch hv
  have hparam : ∀ q ∈ argPairs fn inst, q.2 < fn.values.length := fun q hq =>
    lt_of_valueOk (h.value target h.target_mem q.2 (h.param_mem hq))
  have harg : ∀ q ∈ argPairs fn inst, q.1 < fn.values.length := fun q hq =>
    lt_of_valueOk (h.types q hq).1
  refine ⟨_, transferBlockArgs_eq_some hstage, fun s hs => ?_⟩
  generalize assignLocals module fn useDispatch = l at *
  have hwatch : ∀ {vs ps : Set ValueId}, (∀ v ∈ vs, v < fn.values.length) →
      (∀ p ∈ ps, p ∈ (argPairs fn inst).map Prod.snd) →
      watch vs ps ⊆ {k | l.localOf k ≠ none} := by
    rintro vs ps hvs hps (v | p) hk
    · exact hhome v (hvs v hk)
    · obtain ⟨q, hq, rfl⟩ := List.mem_map.mp (hps p hk)
      exact hstage q hq
  obtain ⟨u, hrun, hu, hstack, hinto⟩ := run_copies hok (intoStaging (argPairs fn inst))
    (fun k hk => by
      obtain ⟨q, hq, rfl⟩ := List.mem_map.mp hk
      exact ⟨hhome _ (harg q hq), hstage q hq, (h.types q hq).2⟩) hs
  obtain ⟨t, hrun', ht, hstack', hout⟩ := run_copies hok (outOfStaging (argPairs fn inst))
    (fun k hk => by
      obtain ⟨q, hq, rfl⟩ := List.mem_map.mp hk
      exact ⟨hstage q hq, hhome _ (hparam q hq), rfl⟩) hu
  have hpar := parallel (h.map_snd ▸ h.nodup)
    (show ∀ q ∈ argPairs fn inst, q.1 ∈ {v | v < fn.values.length} from harg)
    (show ∀ q ∈ argPairs fn inst, q.2 ∈ {v | v < fn.values.length} from hparam)
    (hinto.mono (hwatch (fun _ hv => hv) fun _ hp => hp))
    (hout.mono (hwatch (fun _ hv => hv) fun _ hp => hp))
  refine ⟨t, ?_, ht, hstack'.trans hstack, hpar.value,
    fun v hv hne => hpar.other v ⟨hv, hv⟩ hne⟩
  rw [run_append]
  exact hrun ▸ hrun'

/-- The parameters of the first block are not staged: there is no code that passes arguments
    to it. -/
theorem transferBlockArgs_first (h : JumpAt module fn b block inst target) (hzero : inst.a = 0)
    (hargs : inst.args ≠ []) (useDispatch : Bool) :
    transferBlockArgs fn (assignLocals module fn useDispatch) inst.a inst.args = none := by
  -- the first argument and its parameter
  obtain ⟨q, hq⟩ : ∃ q, q ∈ argPairs fn inst := by
    refine List.exists_mem_of_ne_nil _ fun hnil => hargs ?_
    have hlen := h.args_length
    rw [← h.map_snd, hnil] at hlen
    exact List.eq_nil_of_length_eq_zero hlen.symm
  refine transferBlockArgs_eq_none hq (by_contra fun hne => ?_)
  obtain ⟨other, hother, hmem⟩ := (staging_ne_none_iff module useDispatch).mp hne
  have hdest := h.dest
  have hdistinct := h.distinct
  rw [hzero] at hdest
  cases hblocks : fn.blocks with
  | nil => rw [hblocks] at hdest; exact absurd hdest (by simp)
  | cons first rest =>
    rw [hblocks] at hdest hother hdistinct
    obtain rfl : first = target := by simpa using hdest
    rw [List.flatMap_cons, List.nodup_append] at hdistinct
    exact hdistinct.2.2 q.2 (h.param_mem hq) q.2
      (List.mem_flatMap.mpr ⟨other, hother, hmem⟩) rfl

/-- The arguments are passed exactly when the parameters are not those of the first block. -/
theorem passesArgs_iff (h : JumpAt module fn b block inst target) :
    PassesArgs module fn inst ↔ inst.a ≠ 0 ∨ inst.args = [] := by
  constructor
  · intro hpass
    by_contra hnot
    obtain ⟨hzero, hargs⟩ := not_or.mp hnot
    rw [not_not] at hzero
    obtain ⟨code, hcode, -⟩ := hpass false
    rw [transferBlockArgs_first h hzero hargs] at hcode
    exact absurd hcode (by simp)
  · intro hcond
    refine passesArgs_of_staged h fun useDispatch q hq => ?_
    rcases hcond with hne | hnil
    · refine (staging_ne_none_iff module useDispatch).mpr ⟨target, ?_, h.param_mem hq⟩
      refine List.mem_of_getElem? (i := inst.a - 1) ?_
      rw [List.getElem?_drop, show 1 + (inst.a - 1) = inst.a by omega, h.dest]
    · rw [argPairs, hnil] at hq
      exact absurd hq (by simp)

end Mirage.Wasm
