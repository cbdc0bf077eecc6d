import Mirage.Wasm.ShadowRegions

/-!
# The shadow stack is balanced

All code of a function keeps the invariant, and leaves the function with the stack pointer of
the entry (`Sound`): one lemma for each kind of code for control, and by induction for the
dispatch loop and for the trees of the structured form. A call is balanced as the functions of
the module are, to any depth (`invokeAt_balanced`), when those that are imported are.

* `shadowStack_balanced`: whenever a function returns, the stack pointer is what it was at the
  entry; as long as there was room, what was taken in between was laid out.
* `overrun_escapes`: without room a block is above the stack pointer of the entry, and another
  one in a slot.
-/

namespace Mirage.Wasm.ShadowStack

open Labels (Flow)

section

variable {W : Type} {env : Env W} {ctx : Context} {module : Module} {callee : Target → Callee W}
  {turns : Nat} {fn : Function} {l : Locals} {entry : BitVec 32} {m m' : Machine W} {inst : Inst}
  {code code' : List Body}

/-- A function that returns: the stack pointer is what it was at the entry, and what was taken in
    between was laid out, if there was room. -/
def Left (fn : Function) (l : Locals) (entry : BitVec 32) : Finish W → Prop
  | .ret _ m => m.sp = entry ∧ (Room fn l entry m.trace → LaidOut fn l entry.toNat m.trace)
  | .halt _ => True

variable (env module callee turns fn l entry) in
/-- The code keeps the invariant, and where it returns, the function can be left. -/
def Sound (code : List Body) : Prop :=
  ∀ m, Inv fn l entry m →
    (Body.runAll env module callee turns code m).Holds (Inv fn l entry) (Left fn l entry)

variable (env module callee turns fn l entry) in
def SoundBody (c : Body) : Prop :=
  ∀ m, Inv fn l entry m →
    (c.run env module callee turns m).Holds (Inv fn l entry) (Left fn l entry)

/-! ## Control -/

theorem sound_nil : Sound env module callee turns fn l entry [] := fun _ h => h

theorem sound_cons {c : Body} (hc : SoundBody env module callee turns fn l entry c)
    (hcode : Sound env module callee turns fn l entry code) :
    Sound env module callee turns fn l entry (c :: code) := fun m h => by
  rw [Body.runAll]
  exact (hc m h).andThen hcode

theorem runAll_append (code code' : List Body) (m : Machine W) :
    Body.runAll env module callee turns (code ++ code') m =
      (Body.runAll env module callee turns code m).andThen
        (Body.runAll env module callee turns code') := by
  induction code generalizing m with
  | nil =>
    rw [List.nil_append, Body.runAll]
    rfl
  | cons c code ih =>
    rw [List.cons_append, Body.runAll, Body.runAll]
    cases c.run env module callee turns m with
    | next m' => exact ih m'
    | br depth m' => rfl
    | done r => rfl

theorem sound_append (h : Sound env module callee turns fn l entry code)
    (h' : Sound env module callee turns fn l entry code') :
    Sound env module callee turns fn l entry (code ++ code') := fun m hm => by
  rw [runAll_append]
  exact (h m hm).andThen h'

theorem sound_flatten {codes : List (List Body)}
    (h : ∀ code ∈ codes, Sound env module callee turns fn l entry code) :
    Sound env module callee turns fn l entry codes.flatten := by
  induction codes with
  | nil => exact sound_nil
  | cons code codes ih =>
    rw [List.flatten_cons]
    exact sound_append (h code List.mem_cons_self) (ih fun c hc => h c (List.mem_cons_of_mem _ hc))

theorem holds_toFlow {x : Except Halt (Machine W)} (h : ∀ m', x = .ok m' → Inv fn l entry m') :
    (toFlow x).Holds (Inv fn l entry) (Left fn l entry) := by
  cases x with
  | ok m' => exact h m' rfl
  | error e => trivial

theorem sound_br (depth : Nat) : SoundBody env module callee turns fn l entry (.br depth) :=
  fun m h => by
    rw [Body.run]
    exact h

theorem sound_brTable (depths : List Nat) (last : Nat) :
    SoundBody env module callee turns fn l entry (.brTable depths last) := fun m h => by
  rw [Body.run]
  split
  · exact h.clear _
  · trivial

theorem sound_unreachable : SoundBody env module callee turns fn l entry .unreachable :=
  fun m _ => by
    rw [Body.run]
    trivial

theorem sound_ifElse (h : Sound env module callee turns fn l entry code)
    (h' : Sound env module callee turns fn l entry code') :
    SoundBody env module callee turns fn l entry (.ifElse code code') := fun m hm => by
  rw [Body.run]
  split
  · split_ifs
    · exact (h _ (hm.clear _)).close fun _ ht => ht.clear _
    · exact (h' _ (hm.clear _)).close fun _ ht => ht.clear _
  · trivial

theorem sound_block (h : Sound env module callee turns fn l entry code) :
    SoundBody env module callee turns fn l entry (.block code) := fun m hm => by
  rw [Body.run]
  exact (h _ (hm.clear _)).close fun _ ht => ht.clear _

theorem sound_loop (h : Sound env module callee turns fn l entry code) :
    SoundBody env module callee turns fn l entry (.loop code) := fun m hm => by
  rw [Body.run]
  refine Labels.holds_loop h (fun _ ht => ht.clear _) ?_ turns (hm.clear _)
  exact fun _ _ => trivial

/-! ## Instructions -/

/-- Straight-line code that leaves the stack pointer and the locals for the frame alone. -/
theorem sound_plain (hcallee : ∀ target, (callee target).Balanced) {p : Plain}
    (hp : p.Spares (Kept fn)) : SoundBody env module callee turns fn l entry (.plain p) :=
  fun m hm => by
    rw [Body.run]
    exact holds_toFlow fun m' h => hm.steady (hp.steady hcallee h)

theorem sound_ops (hcallee : ∀ target, (callee target).Balanced) {code : List Instr}
    (h : ∀ i, .localSet i ∈ code → ¬Kept fn i) :
    Sound env module callee turns fn l entry (code.map fun i => .plain (.op i)) := by
  have hspared := spared_map_op h
  induction code with
  | nil => exact sound_nil
  | cons i code ih =>
    obtain ⟨hi, hcode⟩ := spared_cons.1 hspared
    exact sound_cons (sound_plain hcallee hi)
      (ih (fun j hj => h j (List.mem_cons_of_mem _ hj)) hcode)

/-- The code of an instruction of the function. -/
theorem sound_ofInst (hcallee : ∀ target, (callee target).Balanced)
    (hl : OwnLocals ctx.module fn l) {block : Block} (hb : block ∈ fn.blocks)
    (hi : inst ∈ block.insts) {code : List Plain} (hcode : emitOrdinary ctx fn l inst = some code) :
    SoundBody env module callee turns fn l entry (.ofInst inst code) := fun m hm => by
  rw [Body.run]
  refine holds_toFlow fun m₂ h => ?_
  obtain ⟨m₁, hrun, rfl⟩ : ∃ m₁, runPlain env module callee code m = .ok m₁ ∧
      m₁.note inst m = m₂ := by
    cases hrun : runPlain env module callee code m with
    | ok m₁ =>
      rw [hrun] at h
      exact ⟨m₁, rfl, by cases h; rfl⟩
    | error e =>
      rw [hrun] at h
      cases h
  by_cases hslot : inst.op = .slotAddr
  · exact hm.slotAddr hcallee hl.index hslot hcode hrun
  by_cases halloc : inst.op = .stackAlloc
  · have hframe : needsFrame fn = true := by
      rw [needsFrame, Bool.or_eq_true]
      exact .inr (List.any_eq_true.2 ⟨block, hb, List.any_eq_true.2 ⟨inst, hi, by simp [halloc]⟩⟩)
    simp only [emitOrdinary, halloc] at hcode
    obtain rfl := Option.some.inj hcode
    exact hm.stackAlloc hl.index hframe halloc hrun
  refine hm.note ?_ ⟨hslot, halloc⟩
  -- a call may open a buffer, and closes it behind itself
  have hcall : ∀ indirect, inst.op = (if indirect then .callIndirect else .call) →
      runPlain env module callee (emitCall ctx fn l inst indirect) m = .ok m₁ →
        Steady (Kept fn) m m₁ := fun indirect hop hrun =>
    steady_emitCall hcallee hl.index (fun hvariadic =>
      ⟨hl.saved (hasVariadicCall_of hb hi hop hvariadic), fun i hi => by
        have := kept_lt hi
        exact ⟨by omega, by rw [vaBaseLocal]; omega⟩⟩) hrun
  by_cases hdirect : inst.op = .call
  · simp only [emitOrdinary, hdirect] at hcode
    obtain rfl := Option.some.inj hcode
    exact hcall false hdirect hrun
  by_cases hindirect : inst.op = .callIndirect
  · simp only [emitOrdinary, hindirect] at hcode
    obtain rfl := Option.some.inj hcode
    exact hcall true hindirect hrun
  exact (spared_emitOrdinary hl.index ⟨halloc, hdirect, hindirect⟩ hcode).steady hcallee hrun

end

/-! ## Code for control -/

section

variable {W : Type} {env : Env W} {ctx : Context} {module : Module} {callee : Target → Callee W}
  {turns : Nat} {fn : Function} {l : Locals} {entry : BitVec 32} {block : BlockId} {inst : Inst}
  {code code' body : List Ctrl}

variable (env ctx module callee turns fn l entry) in
/-- What the code stands for keeps the invariant. -/
def Expands (code : List Ctrl) : Prop :=
  ∀ body, expandAll ctx fn l code = some body → Sound env module callee turns fn l entry body

theorem expands_nil : Expands env ctx module callee turns fn l entry [] := fun body h => by
  cases h
  exact sound_nil

theorem expands_cons {c : Ctrl}
    (hc : ∀ c', expand ctx fn l c = some c' → SoundBody env module callee turns fn l entry c')
    (hcode : Expands env ctx module callee turns fn l entry code) :
    Expands env ctx module callee turns fn l entry (c :: code) := fun body h => by
  rw [expandAll, Option.bind_eq_some_iff] at h
  obtain ⟨c', hc', h⟩ := h
  obtain ⟨rest, hrest, rfl⟩ := Option.map_eq_some_iff.1 h
  exact sound_cons (hc c' hc') (hcode rest hrest)

theorem expandAll_append (code code' : List Ctrl) :
    expandAll ctx fn l (code ++ code') = (expandAll ctx fn l code).bind fun body =>
      (expandAll ctx fn l code').map (body ++ ·) := by
  induction code with
  | nil =>
    rw [List.nil_append, expandAll, Option.bind_some]
    cases expandAll ctx fn l code' <;> rfl
  | cons c code ih =>
    rw [List.cons_append, expandAll, expandAll, ih]
    cases expand ctx fn l c with
    | none => rfl
    | some c' =>
      cases expandAll ctx fn l code with
      | none => rfl
      | some body => cases expandAll ctx fn l code' <;> rfl

theorem expands_append (h : Expands env ctx module callee turns fn l entry code)
    (h' : Expands env ctx module callee turns fn l entry code') :
    Expands env ctx module callee turns fn l entry (code ++ code') := fun body hbody => by
  rw [expandAll_append, Option.bind_eq_some_iff] at hbody
  obtain ⟨first, hfirst, hbody⟩ := hbody
  obtain ⟨second, hsecond, rfl⟩ := Option.map_eq_some_iff.1 hbody
  exact sound_append (h first hfirst) (h' second hsecond)

section

variable (hcode : Expands env ctx module callee turns fn l entry code)

include hcode

theorem expands_op (hcallee : ∀ target, (callee target).Balanced) {i : Instr}
    (hi : (Plain.op i).Spares (Kept fn)) :
    Expands env ctx module callee turns fn l entry (.op i :: code) :=
  expands_cons (fun c' h => by cases h; exact sound_plain hcallee hi) hcode

theorem expands_br (depth : Nat) :
    Expands env ctx module callee turns fn l entry (.br depth :: code) :=
  expands_cons (fun c' h => by cases h; exact sound_br depth) hcode

theorem expands_unreachable :
    Expands env ctx module callee turns fn l entry (.unreachable :: code) :=
  expands_cons (fun c' h => by cases h; exact sound_unreachable) hcode

theorem expands_brTable (depths : List Nat) (last : Nat) :
    Expands env ctx module callee turns fn l entry (.brTable depths last :: code) :=
  expands_cons (fun c' h => by cases h; exact sound_brTable depths last) hcode

theorem expands_ifVoid (hbody : Expands env ctx module callee turns fn l entry body) :
    Expands env ctx module callee turns fn l entry (.ifVoid body :: code) :=
  expands_cons (fun c' h => by
    obtain ⟨body', hbody', rfl⟩ := Option.map_eq_some_iff.1 h
    exact sound_ifElse (hbody body' hbody') sound_nil) hcode

theorem expands_block (hbody : Expands env ctx module callee turns fn l entry body) :
    Expands env ctx module callee turns fn l entry (.block body :: code) :=
  expands_cons (fun c' h => by
    obtain ⟨body', hbody', rfl⟩ := Option.map_eq_some_iff.1 h
    exact sound_block (hbody body' hbody')) hcode

theorem expands_loop (hbody : Expands env ctx module callee turns fn l entry body) :
    Expands env ctx module callee turns fn l entry (.loop body :: code) :=
  expands_cons (fun c' h => by
    obtain ⟨body', hbody', rfl⟩ := Option.map_eq_some_iff.1 h
    exact sound_loop (hbody body' hbody')) hcode

end

theorem expands_ops (hcallee : ∀ target, (callee target).Balanced) {is : List Instr}
    (h : ∀ i, .localSet i ∈ is → ¬Kept fn i)
    (hcode : Expands env ctx module callee turns fn l entry code) :
    Expands env ctx module callee turns fn l entry (is.map .op ++ code) := by
  have hspared := spared_map_op h
  induction is with
  | nil => exact hcode
  | cons i is ih =>
    obtain ⟨hi, his⟩ := spared_cons.1 hspared
    exact expands_op (ih (fun j hj => h j (List.mem_cons_of_mem _ hj)) his) hcallee hi

/-! ## The code of a block -/

theorem not_kept_state (module : Module) (fn : Function) : ¬Kept fn (stateIndex module fn) :=
  fun h => Nat.not_lt.2 (vaSavedLocal_le module fn) (kept_lt h)

theorem expands_goto (hcallee : ∀ target, (callee target).Balanced) (extra : Nat)
    (target : BlockId) :
    Expands env ctx module callee turns fn l entry
      (dispatchGoto ctx.module fn block extra target) := by
  refine expands_op (expands_op (expands_br expands_nil _) hcallee ?_) hcallee trivial
  exact not_kept_state ctx.module fn

theorem expands_pairs (hcallee : ∀ target, (callee target).Balanced) (a : ValueId)
    (args : List Nat) :
    Expands env ctx module callee turns fn l entry
      (dispatchPairs ctx.module fn l block a args) := by
  induction args using dispatchPairs.induct with
  | case1 value target rest ih =>
    rw [dispatchPairs]
    refine expands_ops hcallee (fun i hi => ?_) (expands_ifVoid ih (expands_goto hcallee 1 target))
    -- a comparison sets no local
    rw [switchCompare] at hi
    split_ifs at hi <;> simp at hi
  | case2 args hargs =>
    rw [dispatchPairs]
    · exact expands_nil
    · exact hargs

/-- The code of a jump's arguments sets the locals of values and those for staging. -/
theorem transfer_spared (hl : OwnLocals ctx.module fn l) {target : BlockId} {args : List ValueId}
    {is : List Instr} (h : transferBlockArgs fn l target args = some is) (i : Nat)
    (hi : .localSet i ∈ is) : ¬Kept fn i := by
  rcases set_of_transferBlockArgs h hi with ⟨p, hp⟩ | ⟨q, -, rfl⟩
  · exact hl.staging p i hp
  · exact hl.index _

/-- The value is put on the stack, and the function left. -/
theorem holds_leave {m : Machine W} (hsp : m.sp = entry)
    (hout : Room fn l entry m.trace → LaidOut fn l entry.toNat m.trace) (value : Option ValueId) :
    (Body.runAll env module callee turns
      ((value.map fun v => Body.plain (.op (.localGet (l.index (.home v))))).toList ++ [.ret])
      m).Holds (Inv fn l entry) (Left fn l entry) := by
  cases value <;> exact ⟨hsp, hout⟩

/-- A `return` puts the stack pointer of the entry back, where there is a frame; otherwise it
    has not moved. -/
theorem expands_ret :
    Expands env ctx module callee turns fn l entry (
      (if needsFrame fn then [.op (.localGet (savedSpLocal fn)), .globalSetSp] else []) ++
      (inst.args.head?.map fun v => .op (.localGet (l.index (.home v)))).toList ++ [.ret]) := by
  intro body hbody m hm
  have hout : Room fn l entry m.trace → LaidOut fn l entry.toNat m.trace := fun hroom => by
    have hlaid := (hm.laid hroom).out
    rwa [Nat.sub_add_cancel hroom.frame] at hlaid
  have htail : ∀ value : Option ValueId, expandAll ctx fn l
      ((value.map fun v => Ctrl.op (.localGet (l.index (.home v)))).toList ++ [.ret]) =
      some ((value.map fun v => Body.plain (.op (.localGet (l.index (.home v))))).toList ++
        [.ret]) := fun value => by
    cases value <;> rfl
  rw [List.append_assoc, expandAll_append, htail, Option.bind_eq_some_iff] at hbody
  obtain ⟨first, hfirst, hbody⟩ := hbody
  obtain rfl := Option.some.inj hbody
  rw [runAll_append]
  cases hframe : needsFrame fn with
  | false =>
    rw [hframe] at hfirst
    cases hfirst
    exact holds_leave (hm.still hframe) hout _
  | true =>
    rw [hframe] at hfirst
    cases hfirst
    have hrun : Body.runAll env module callee turns
        [.plain (.op (.localGet (savedSpLocal fn))), .plain .spSet] m =
        .next { m.clear m.state.stack with sp := entry } := by
      simp only [Body.runAll, Body.run, Plain.run, Machine.after, Instr.run, State.push,
        hm.saved hframe, toFlow, Flow.andThen]
      rfl
    rw [hrun]
    exact holds_leave rfl hout _

/-- An instruction of a block stands in one of the function. -/
theorem exists_block (h : inst ∈ (fn.blocks.getD block {}).insts) :
    ∃ blk ∈ fn.blocks, inst ∈ blk.insts := by
  rw [List.getD_eq_getElem?_getD] at h
  cases hblock : fn.blocks[block]? with
  | none =>
    rw [hblock] at h
    exact absurd h List.not_mem_nil
  | some blk =>
    rw [hblock] at h
    exact ⟨blk, List.mem_of_getElem? hblock, h⟩

/-- The code of an instruction, terminators included. -/
theorem expands_emitInst (hcallee : ∀ target, (callee target).Balanced)
    (hl : OwnLocals ctx.module fn l) (hi : inst ∈ (fn.blocks.getD block {}).insts)
    {code : List Ctrl} (hcode : Wasm.emitInst ctx.module fn l block inst = some code) :
    Expands env ctx module callee turns fn l entry code := by
  obtain ⟨blk, hb, hi⟩ := exists_block hi
  rw [Wasm.emitInst] at hcode
  split at hcode
  · obtain ⟨is, his, rfl⟩ := Option.map_eq_some_iff.1 hcode
    exact expands_ops hcallee (transfer_spared hl his) (expands_goto hcallee 0 inst.a)
  · cases hcode
    refine expands_op ?_ hcallee trivial
    refine expands_op ?_ hcallee trivial
    refine expands_op ?_ hcallee trivial
    refine expands_op ?_ hcallee trivial
    exact expands_op (expands_br expands_nil _) hcallee (not_kept_state ctx.module fn)
  · cases hcode
    exact expands_append (expands_pairs hcallee inst.a inst.args) (expands_goto hcallee 0 inst.b)
  · cases hcode
    exact expands_ret
  · cases hcode
    exact expands_unreachable expands_nil
  · cases hcode
    refine expands_cons (fun c' hc' => ?_) expands_nil
    obtain ⟨plain, hplain, rfl⟩ := Option.map_eq_some_iff.1 hc'
    exact sound_ofInst hcallee hl hb hi hplain

theorem sound_emitInst (hcallee : ∀ target, (callee target).Balanced)
    (hl : OwnLocals ctx.module fn l) (hi : inst ∈ (fn.blocks.getD block {}).insts)
    {body : List Body} (h : emitInst ctx fn l block inst = some body) :
    Sound env module callee turns fn l entry body := by
  rw [emitInst, Option.bind_eq_some_iff] at h
  obtain ⟨code, hcode, hbody⟩ := h
  exact expands_emitInst hcallee hl hi hcode body hbody

/-- The results for the elements, when there is one for each. -/
theorem mem_of_mapM {α β : Type} {f : α → Option β} {as : List α} {bs : List β}
    (h : as.mapM f = some bs) : ∀ b ∈ bs, ∃ a ∈ as, f a = some b := by
  induction as generalizing bs with
  | nil =>
    cases h
    exact fun b hb => absurd hb List.not_mem_nil
  | cons a as ih =>
    rw [List.mapM_cons, Option.bind_eq_bind, Option.bind_eq_some_iff] at h
    obtain ⟨b, hb, h⟩ := h
    rw [Option.bind_eq_bind, Option.bind_eq_some_iff] at h
    obtain ⟨bs', hbs, h⟩ := h
    cases h
    refine List.forall_mem_cons.2 ⟨⟨a, List.mem_cons_self, hb⟩, fun b' hb' => ?_⟩
    obtain ⟨a', ha', hf⟩ := ih hbs b' hb'
    exact ⟨a', List.mem_cons_of_mem _ ha', hf⟩

/-- The code of some instructions of a block. -/
theorem sound_insts (hcallee : ∀ target, (callee target).Balanced)
    (hl : OwnLocals ctx.module fn l) {insts : List Inst}
    (hinsts : ∀ inst ∈ insts, inst ∈ (fn.blocks.getD block {}).insts) {codes : List (List Body)}
    (h : insts.mapM (emitInst ctx fn l block) = some codes) :
    Sound env module callee turns fn l entry codes.flatten := by
  refine sound_flatten fun code hcode => ?_
  obtain ⟨inst, hinst, hemit⟩ := mem_of_mapM h code hcode
  exact sound_emitInst hcallee hl (hinsts inst hinst) hemit

/-- The code of a block of the dispatch loop. -/
theorem expands_emitBlock (hcallee : ∀ target, (callee target).Balanced)
    (hl : OwnLocals ctx.module fn l) {code : List Ctrl}
    (h : emitBlock ctx.module fn l block = some code) :
    Expands env ctx module callee turns fn l entry code := by
  obtain ⟨codes, hcodes, rfl⟩ := Option.map_eq_some_iff.1 h
  have hall := mem_of_mapM hcodes
  clear h hcodes
  induction codes with
  | nil => exact expands_nil
  | cons c codes ih =>
    obtain ⟨hc, hcodes⟩ := List.forall_mem_cons.1 hall
    obtain ⟨inst, hinst, hemit⟩ := hc
    rw [List.flatten_cons]
    exact expands_append (expands_emitInst hcallee hl hinst hemit) (ih hcodes)

/-! ## The dispatch loop -/

theorem expands_landingPads (hcallee : ∀ target, (callee target).Balanced)
    {code : BlockId → List Ctrl}
    (hcode : ∀ b, Expands env ctx module callee turns fn l entry (code b)) (k : Nat) :
    Expands env ctx module callee turns fn l entry (landingPads ctx.module fn code k) := by
  induction k with
  | zero => exact expands_op (expands_brTable expands_nil _ _) hcallee trivial
  | succ k ih => exact expands_block (hcode k) ih

theorem expands_dispatchLoop (hcallee : ∀ target, (callee target).Balanced)
    (hl : OwnLocals ctx.module fn (assignLocals ctx.module fn true)) {code : List Ctrl}
    (h : dispatchLoop ctx.module fn = some code) :
    Expands env ctx module callee turns fn (assignLocals ctx.module fn true) entry code := by
  rw [dispatchLoop, Option.bind_eq_bind, Option.bind_eq_some_iff] at h
  obtain ⟨blocks, hblocks, h⟩ := h
  cases h
  refine expands_loop (expands_unreachable expands_nil)
    (expands_landingPads hcallee (fun b => ?_) fn.blocks.length)
  rw [List.getD_eq_getElem?_getD]
  cases hb : blocks[b]? with
  | none => exact expands_nil
  | some code =>
    obtain ⟨b', -, hemit⟩ := mem_of_mapM hblocks code (List.mem_of_getElem? hb)
    exact expands_emitBlock hcallee hl hemit

end

/-! ## The structured form -/

section

variable {W : Type} {env : Env W} {ctx : Context} {module : Module} {callee : Target → Callee W}
  {turns : Nat} {fn : Function} {l : Locals} {entry : BitVec 32} {block : BlockId} {inst : Inst}
  {tree : List NestEntry → BlockId → Option (List Body)} {cfg : Analysis} {nest : List NestEntry}
  {body : List Body}

theorem inTrees_append (code code' : List Code) :
    inTrees tree (code ++ code') nest = (inTrees tree code nest).bind fun body =>
      (inTrees tree code' nest).map (body ++ ·) := by
  induction code with
  | nil =>
    rw [List.nil_append, inTrees, Option.bind_some]
    cases inTrees tree code' nest <;> rfl
  | cons c code ih =>
    rw [List.cons_append, inTrees, inTrees, ih]
    cases inTree tree c nest with
    | none => rfl
    | some first =>
      cases inTrees tree code nest with
      | none => rfl
      | some body => cases inTrees tree code' nest <;> simp

theorem inTrees_ops (is : List Instr) :
    inTrees tree (is.map .op) nest = some (is.map fun i => .plain (.op i)) := by
  induction is with
  | nil => rfl
  | cons i is ih =>
    rw [List.map_cons, inTrees, inTree, ih]
    rfl

variable (hcallee : ∀ target, (callee target).Balanced) (hl : OwnLocals ctx.module fn l)
  (htree : ∀ nest b body, tree nest b = some body → Sound env module callee turns fn l entry body)

include htree

/-- A block is entered by a branch, or its tree stands in place. -/
theorem sound_enter {src dst : BlockId} (h : enter tree cfg nest src dst = some body) :
    Sound env module callee turns fn l entry body := by
  rw [enter, Option.bind_eq_some_iff] at h
  obtain ⟨code, hcode, hbody⟩ := h
  have hbr : ∀ {depth : Option Nat}, (depth.map fun d => [Code.br d]) = some code →
      Sound env module callee turns fn l entry body := fun hdepth => by
    obtain ⟨d, -, rfl⟩ := Option.map_eq_some_iff.1 hdepth
    cases hbody
    exact sound_cons (sound_br d) sound_nil
  rw [doBranch] at hcode
  split_ifs at hcode
  · exact hbr hcode
  · exact hbr hcode
  · cases hcode
    rw [inTrees, inTree, Option.bind_eq_some_iff] at hbody
    obtain ⟨first, hfirst, hbody⟩ := hbody
    cases hbody
    show Sound env module callee turns fn l entry (first ++ [])
    rw [List.append_nil]
    exact htree nest dst first hfirst

include hcallee

theorem sound_cases {wide : Bool} {v : ValueId} {args : List Nat} {code : List Code}
    (hcode : structuredCases (branchCfg cfg) nest block wide v args = some code)
    (hbody : inTrees tree code nest = some body) :
    Sound env module callee turns fn l entry body := by
  induction args using structuredCases.induct generalizing code body with
  | case1 value target rest ih =>
    rw [structuredCases, Option.bind_eq_bind, Option.bind_eq_some_iff] at hcode
    obtain ⟨yes, hyes, hcode⟩ := hcode
    obtain ⟨others, hothers, hcode⟩ := Option.bind_eq_some_iff.1 hcode
    cases hcode
    rw [inTrees_append, inTrees_ops, Option.bind_some] at hbody
    obtain ⟨second, hsecond, rfl⟩ := Option.map_eq_some_iff.1 hbody
    rw [inTrees, inTree, Option.bind_eq_some_iff] at hsecond
    obtain ⟨first, hfirst, hsecond⟩ := hsecond
    obtain ⟨last, hlast, rfl⟩ := Option.map_eq_some_iff.1 hsecond
    obtain ⟨taken, htaken, rfl⟩ := Option.map_eq_some_iff.1 hfirst
    have hyes : enter tree cfg (⟨.cond, noValue⟩ :: nest) block target = some taken := by
      rw [enter, hyes]
      exact htaken
    refine sound_append (sound_ops hcallee fun i hi => ?_)
      (sound_cons (sound_ifElse (sound_enter htree hyes) sound_nil) (ih hothers hlast))
    -- a comparison sets no local
    rw [switchCompare] at hi
    split_ifs at hi <;> simp at hi
  | case2 args hargs =>
    rw [structuredCases] at hcode
    · cases hcode
      cases hbody
      exact sound_nil
    · exact hargs

include hl

theorem sound_emitTerminator (hi : inst ∈ (fn.blocks.getD block {}).insts)
    (h : emitTerminator tree ctx fn l cfg nest block inst = some body) :
    Sound env module callee turns fn l entry body := by
  rw [emitTerminator] at h
  split at h
  · rw [Option.bind_eq_bind, Option.bind_eq_some_iff] at h
    obtain ⟨is, his, h⟩ := h
    obtain ⟨next, hnext, h⟩ := Option.bind_eq_some_iff.1 h
    cases h
    exact sound_append (sound_ops hcallee (transfer_spared hl his)) (sound_enter htree hnext)
  · rw [Option.bind_eq_bind, Option.bind_eq_some_iff] at h
    obtain ⟨yes, hyes, h⟩ := h
    obtain ⟨no, hno, h⟩ := Option.bind_eq_some_iff.1 h
    cases h
    refine sound_cons (sound_plain hcallee trivial) (sound_cons ?_ sound_nil)
    exact sound_ifElse (sound_enter htree hyes) (sound_enter htree hno)
  · rw [Option.bind_eq_bind, Option.bind_eq_some_iff] at h
    obtain ⟨code, hcode, h⟩ := h
    obtain ⟨cases', hcases, h⟩ := Option.bind_eq_some_iff.1 h
    obtain ⟨last, hlast, h⟩ := Option.bind_eq_some_iff.1 h
    cases h
    exact sound_append (sound_cases hcallee htree hcode hcases) (sound_enter htree hlast)
  · exact sound_emitInst hcallee hl hi h

theorem sound_emitBlockCode (h : emitBlockCode tree ctx fn l cfg nest block = some body) :
    Sound env module callee turns fn l entry body := by
  rw [emitBlockCode, Option.bind_eq_bind, Option.bind_eq_some_iff] at h
  obtain ⟨codes, hcodes, h⟩ := h
  obtain ⟨last, hlast, h⟩ := Option.bind_eq_some_iff.1 h
  cases h
  refine sound_append (sound_insts hcallee hl (fun i hi => List.mem_of_mem_dropLast hi) hcodes) ?_
  cases hterm : (fn.blocks.getD block {}).insts.getLast? with
  | none =>
    rw [hterm] at hlast
    cases hlast
    exact sound_nil
  | some term =>
    rw [hterm] at hlast
    exact sound_emitTerminator hcallee hl htree (List.mem_of_getLast? hterm) hlast

theorem sound_nodeWithin {x : BlockId} (count : Nat)
    (h : nodeWithin tree ctx fn l cfg x nest count = some body) :
    Sound env module callee turns fn l entry body := by
  induction count generalizing nest body with
  | zero => exact sound_emitBlockCode hcallee hl htree h
  | succ count ih =>
    rw [nodeWithin, Option.bind_eq_bind, Option.bind_eq_some_iff] at h
    obtain ⟨child, -, h⟩ := h
    obtain ⟨inner, hinner, h⟩ := Option.bind_eq_some_iff.1 h
    obtain ⟨after, hafter, h⟩ := Option.bind_eq_some_iff.1 h
    cases h
    exact sound_cons (sound_block (ih hinner)) (htree nest child after hafter)

omit htree

/-- The code of a dominator tree, by the trees below it. -/
theorem sound_doTree (fuel : Nat) : ∀ nest b body, doTree ctx fn l cfg fuel nest b = some body →
    Sound env module callee turns fn l entry body := by
  induction fuel with
  | zero => exact fun nest b body h => by cases h
  | succ fuel ih =>
    intro nest b body h
    simp only [doTree] at h
    split_ifs at h
    · obtain ⟨inner, hinner, rfl⟩ := Option.map_eq_some_iff.1 h
      exact sound_cons (sound_loop (sound_nodeWithin hcallee hl ih _ hinner)) sound_nil
    · exact sound_nodeWithin hcallee hl ih _ h

end

/-! ## The function -/

section

variable {W : Type} {env : Env W} {ctx : Context} {module : Module} {callee : Target → Callee W}
  {turns fuel : Nat} {fn : Function} {l : Locals} {m : Machine W} {code : Emitted}
  {args : List Val} {sp : BitVec 32} {w : W} {value : Option Val}

theorem runAll_plain (code : List Plain) (m : Machine W) :
    Body.runAll env module callee turns (code.map .plain) m =
      toFlow (runPlain env module callee code m) := by
  induction code generalizing m with
  | nil => rfl
  | cons p code ih =>
    rw [List.map_cons, Body.runAll, Body.run, runPlain_cons]
    cases p.run env module callee m with
    | ok m' => exact ih m'
    | error e => rfl

/-- Without a frame there are no bytes in it. -/
theorem frameSize_eq_zero (h : needsFrame fn = false) : frameSize fn = 0 := by
  rw [needsFrame, Bool.or_eq_false_iff] at h
  have hpos := of_decide_eq_false h.1
  omega

/-- The prologue establishes the invariant. -/
theorem inv_prologue (hw : m.sp = sp) (htrace : m.trace = []) {m' : Machine W}
    (h : runPlain env module callee (prologue fn) m = .ok m') : Inv fn l sp m' := by
  rw [prologue] at h
  cases hframe : needsFrame fn with
  | false =>
    rw [hframe] at h
    cases h
    have hno : ¬needsFrame fn = true := by simp [hframe]
    refine ⟨fun h => absurd h hno, fun h => absurd h hno, fun _ => hw, fun _ => ?_⟩
    rw [htrace, hw, frameSize_eq_zero hframe]
    exact laid_nil (Nat.le_refl _)
  | true =>
    rw [hframe, if_pos rfl] at h
    obtain ⟨m₁, h₁, h⟩ := runPlain_cons_ok.1 h
    cases h₁
    obtain ⟨m₂, h₂, h⟩ := runPlain_cons_ok.1 h
    obtain rfl := localTee_ok rfl h₂
    obtain ⟨hsp, hlocal, hother, htrace'⟩ := run_lower rfl h
    have hne : savedSpLocal fn ≠ frameLocal fn := Nat.ne_of_lt (Nat.lt_succ_self (savedSpLocal fn))
    refine ⟨fun _ => ?_, fun _ => ?_, fun h => absurd (hframe.symm.trans h) (by decide),
      fun hroom => ?_⟩
    · rw [hother _ hne, ← hw]
      exact if_pos rfl
    · rw [hlocal, hw]
    · rw [htrace', hsp, hw, toNat_frame hroom.frame]
      show Laid fn l _ _ m.trace
      rw [htrace]
      exact laid_nil (Nat.le_refl _)

/-- The code of a function, behind its prologue, keeps the invariant. -/
theorem sound_emitWith (hcallee : ∀ target, (callee target).Balanced) {cfg : Option Analysis}
    (h : emitWith ctx fn fuel cfg = some code) (hlen : code.locals.types.length < 4294967296) :
    ∃ body, code.body = (prologue fn).map .plain ++ body ∧
      Sound env module callee turns fn code.locals sp body := by
  have hend : Sound env module callee turns fn code.locals sp [.unreachable] :=
    sound_cons sound_unreachable sound_nil
  cases cfg with
  | none =>
    rw [emitWith, Option.bind_eq_bind, Option.bind_eq_some_iff] at h
    obtain ⟨codes, hcodes, h⟩ := h
    cases h
    exact ⟨_, rfl, sound_append (sound_insts hcallee (ownLocals hlen) (fun _ h => h) hcodes) hend⟩
  | some cfg =>
    rw [emitWith] at h
    split_ifs at h
    · rw [Option.bind_eq_bind, Option.bind_eq_some_iff] at h
      obtain ⟨body, hbody, h⟩ := h
      cases h
      exact ⟨_, rfl, sound_append (sound_doTree hcallee (ownLocals hlen) fuel [] 0 body hbody) hend⟩
    · rw [Option.bind_eq_bind, Option.bind_eq_some_iff] at h
      obtain ⟨body, hbody, h⟩ := h
      cases h
      obtain ⟨loop, hloop, hbody⟩ := Option.bind_eq_some_iff.1 hbody
      exact ⟨_, rfl, expands_dispatchLoop hcallee (ownLocals hlen) hloop body hbody⟩

/-- How a function is left whose callees return with the stack pointer they are called with. -/
theorem left_of_activate (hcallee : ∀ target, (callee target).Balanced)
    (hcode : emit ctx fn fuel = some code)
    (hrun : code.activate env module callee turns args sp w = .ret value m) :
    Left fn code.locals sp (.ret value m) := by
  obtain ⟨cfg, hcfg⟩ : ∃ cfg, emitWith ctx fn fuel cfg = some code := by
    rw [emit] at hcode
    split_ifs at hcode
    · obtain ⟨cfg, -, hcode⟩ := Option.bind_eq_some_iff.1 hcode
      exact ⟨some cfg, hcode⟩
    · exact ⟨none, hcode⟩
  rw [Emitted.activate] at hrun
  split_ifs at hrun with hlen
  obtain ⟨body, hbody, hsound⟩ : ∃ body, code.body = (prologue fn).map .plain ++ body ∧
      Sound env module callee turns fn code.locals sp body := sound_emitWith hcallee hcfg hlen
  have hholds : (Body.runAll env module callee turns code.body (code.enter args sp w)).Holds
      (Inv fn code.locals sp) (Left fn code.locals sp) := by
    rw [hbody, runAll_append, runAll_plain]
    exact (holds_toFlow fun m' h => inv_prologue rfl rfl h).andThen hsound
  cases hflow : Body.runAll env module callee turns code.body (code.enter args sp w) with
  | next m' =>
    rw [hflow] at hrun
    cases hrun
  | br depth m' =>
    rw [hflow] at hrun
    cases hrun
  | done r =>
    rw [hflow] at hrun hholds
    cases hrun
    exact hholds

/-- The functions of the module return with the stack pointer they are called with, when those
    that are imported do. -/
theorem invokeAt_balanced (hhost : ∀ target, (env.host target).Balanced) (depth : Nat)
    (target : Target) :
    (invokeAt env ctx.module turns (fun fn => emit ctx fn fuel) depth target).Balanced := by
  induction depth generalizing target with
  | zero =>
    intro args sp w value sp' w' h
    cases h
  | succ depth ih =>
    intro args sp w value sp' w' h
    cases target with
    | fmod dbl => exact hhost (.fmod dbl) args sp w value sp' w' h
    | function f =>
      simp only [invokeAt] at h
      split_ifs at h
      · split at h
        · rename_i code hcode
          cases hrun : code.activate env ctx.module
              (invokeAt env ctx.module turns (fun fn => emit ctx fn fuel) depth) turns args sp
              w with
          | halt e =>
            rw [hrun] at h
            cases h
          | ret result m =>
            rw [hrun] at h
            have hleft := (left_of_activate ih hcode hrun).1
            simp only [Finish.seen] at h
            split at h
            · cases h
              exact hleft
            · split_ifs at h
              cases h
              exact hleft
        · cases h
      · exact hhost (.function f) args sp w value sp' w' h

/-- Whenever a function returns, the stack pointer is what it was at the entry. While it ran,
    and as long as there was room, all that was taken of the shadow stack was between the
    stack pointer and that of the entry, and apart from each other. -/
theorem shadowStack_balanced (hhost : ∀ target, (env.host target).Balanced) (depth : Nat)
    (hcode : emit ctx fn fuel = some code)
    (hrun : code.activate env ctx.module
      (invokeAt env ctx.module turns (fun fn => emit ctx fn fuel) depth) turns args sp w =
        .ret value m) :
    m.sp = sp ∧ (Room fn code.locals sp m.trace → LaidOut fn code.locals sp.toNat m.trace) :=
  left_of_activate (invokeAt_balanced hhost depth) hcode hrun

/-- What is taken in a run that returns, the last first: by which instruction, and with which
    stack pointer before it. -/
def Finish.taken (fn : Function) (l : Locals) : Finish W → Option (List (Op × Nat × Region))
  | .ret _ m => some (m.trace.filterMap fun e =>
      (e.region fn l).map fun r => (e.inst.op, e.old.sp.toNat, r))
  | .halt _ => none

theorem ret_of_taken {f : Finish W} {rs : List (Op × Nat × Region)}
    (h : f.taken fn l = some rs) : ∃ value m, f = .ret value m ∧ ∀ q, q ∈ rs ↔
      ∃ e ∈ m.trace, ∃ r, e.region fn l = some r ∧ (e.inst.op, e.old.sp.toNat, r) = q := by
  cases f with
  | halt e => cases h
  | ret value m =>
    cases h
    refine ⟨value, m, rfl, fun q => ?_⟩
    simp only [List.mem_filterMap, Option.map_eq_some_iff]

end

/-! ## Two functions -/

/-- An environment without floats and loads, whose functions return zero. The world are the
    values that have been stored. -/
def stores : Env (List (Nat × Val)) where
  float _ _ := none
  load _ _ _ _ := none
  store _ address x w := some ((address, x) :: w)
  copy _ _ _ _ := none
  fill _ _ _ _ := none
  table _ _ := none
  host _ _ sp w := .ok (some (.i32 0), sp, w)

/-- A loop that allocates a block and calls `printf` in each of two turns. -/
def printLoop : Function where
  hasBody := true
  slots := [{ size := 24, align := 8 }]
  values := [{ type := .ptr }, { type := .i32 }, { type := .i32 }, { type := .i32 },
    { type := .ptr }, { type := .i32 }, { type := .i32 }, { type := .i32 }, { type := .i32 },
    { type := .i1 }]
  blocks :=
    [ { insts :=
          [ { op := .slotAddr, type := .ptr, result := 0, a := 0 },
            { op := .constInt, type := .i32, result := 1, imm := 2 },
            { op := .jump, a := 1, args := [1] } ] },
      { params := [2]
        insts :=
          [ { op := .constInt, type := .i32, result := 3, imm := 24 },
            { op := .stackAlloc, type := .ptr, result := 4, a := 3 },
            { op := .call, type := .i32, result := 5, a := 1, args := [0, 2, 3] },
            { op := .constInt, type := .i32, result := 6, imm := 1 },
            { op := .sub, type := .i32, result := 7, a := 2, b := 6 },
            { op := .constInt, type := .i32, result := 8, imm := 0 },
            { op := .icmpNe, type := .i1, result := 9, a := 7, b := 8 },
            { op := .branch, a := 9, b := 2, c := 3 } ] },
      { insts := [{ op := .jump, a := 1, args := [7] }] },
      { insts := [{ op := .ret }] } ]

def printModule : Module where
  pointerBits := 32
  functions := [printLoop, { name := "printf", signature := 1 }]
  signatures := [{}, { params := [.ptr], result := .i32, isVariadic := true }]

/-- A module without globals, and without functions in the table. -/
def plainContext (module : Module) : Context := ⟨module, fun _ => 0, fun _ => none⟩

/-- The function called from outside, with 64 kilobytes of stack. -/
def outermost (module : Module) (code : Emitted) : Finish (List (Nat × Val)) :=
  code.activate stores module
    (invokeAt stores module 3 (fun fn => emit (plainContext module) fn 8) 1) 3 [] 65536 []

/-- The run of the loop. -/
theorem printLoop_balanced : ∃ code value m,
    emit (plainContext printModule) printLoop 8 = some code ∧
      outermost printModule code = .ret value m ∧ m.sp = 65536 ∧
      LaidOut printLoop code.locals 65536 m.trace := by
  have hrun : (emit (plainContext printModule) printLoop 8).map (fun code =>
      (outermost printModule code).taken printLoop code.locals) =
      some (some [(.stackAlloc, 65472, ⟨65440, 24⟩), (.stackAlloc, 65504, ⟨65472, 24⟩),
        (.slotAddr, 65504, ⟨65504, 24⟩)]) := by
    decide +kernel
  obtain ⟨code, hcode, htaken⟩ := Option.map_eq_some_iff.1 hrun
  obtain ⟨value, m, hret, hmem⟩ := ret_of_taken htaken
  have hhost : ∀ target, (stores.host target).Balanced := fun target args sp w value sp' w' h => by
    cases h
    rfl
  obtain ⟨hsp, hlaid⟩ := shadowStack_balanced hhost 1 hcode hret
  refine ⟨code, value, m, hcode, hret, hsp, hlaid ⟨by decide, fun e he hop => ?_⟩⟩
  have hall : ∀ q ∈ [(Op.stackAlloc, 65472, Region.mk 65440 24), (.stackAlloc, 65504, ⟨65472, 24⟩),
      (.slotAddr, 65504, ⟨65504, 24⟩)], q.2.2.size ≤ q.2.1 := by decide
  exact hall _ ((hmem _).2 ⟨e, he, _, by rw [Event.region, hop], rfl⟩)

/-- A slot of 64 bytes, and two blocks for which there is no room. -/
def overrun : Function where
  hasBody := true
  slots := [{ size := 64, align := 16 }]
  values := [{ type := .ptr }, { type := .i32 }, { type := .ptr }, { type := .i32 },
    { type := .ptr }]
  blocks :=
    [ { insts :=
          [ { op := .slotAddr, type := .ptr, result := 0, a := 0 },
            { op := .constInt, type := .i32, result := 1, imm := 0xFFFFFFE0 },
            { op := .stackAlloc, type := .ptr, result := 2, a := 1 },
            { op := .constInt, type := .i32, result := 3, imm := 0xFFFFFFC0 },
            { op := .stackAlloc, type := .ptr, result := 4, a := 3 },
            { op := .ret } ] } ]

def overrunModule : Module where
  pointerBits := 32
  functions := [overrun]
  signatures := [{}]

/-- The size of a block is subtracted from the stack pointer modulo `2 ^ 32`, and nothing looks
    whether there is room: the first block begins in the slot, and the second one above the
    stack pointer of the entry. -/
theorem overrun_escapes : overrun.Accepted overrunModule ∧
    ∃ code value m, emit (plainContext overrunModule) overrun 8 = some code ∧
      outermost overrunModule code = .ret value m ∧
      (∃ e ∈ m.trace, ∃ r, e.region overrun code.locals = some r ∧ 65536 < r.addr) ∧
      ∃ e ∈ m.trace, ∃ e' ∈ m.trace, ∃ r r', e.region overrun code.locals = some r ∧
        e'.region overrun code.locals = some r' ∧ ¬e.SameSlot e' ∧ r'.addr < r.addr ∧
          r.addr < r'.addr + r'.size := by
  have hrun : (emit (plainContext overrunModule) overrun 8).map (fun code =>
      (outermost overrunModule code).taken overrun code.locals) =
      some (some [(.stackAlloc, 65504, ⟨65568, 4294967232⟩),
        (.stackAlloc, 65472, ⟨65504, 4294967264⟩), (.slotAddr, 65472, ⟨65472, 64⟩)]) := by
    decide +kernel
  obtain ⟨code, hcode, htaken⟩ := Option.map_eq_some_iff.1 hrun
  obtain ⟨value, m, hret, hmem⟩ := ret_of_taken htaken
  obtain ⟨second, hsecond, r₂, hr₂, heq₂⟩ :=
    (hmem (.stackAlloc, 65504, ⟨65568, 4294967232⟩)).1 (by simp)
  obtain ⟨first, hfirst, r₁, hr₁, heq₁⟩ :=
    (hmem (.stackAlloc, 65472, ⟨65504, 4294967264⟩)).1 (by simp)
  obtain ⟨slot, hslot, r₀, hr₀, heq₀⟩ := (hmem (.slotAddr, 65472, ⟨65472, 64⟩)).1 (by simp)
  simp only [Prod.mk.injEq] at heq₀ heq₁ heq₂
  refine ⟨by decide, code, value, m, hcode, hret, ⟨second, hsecond, r₂, hr₂, ?_⟩,
    first, hfirst, slot, hslot, r₁, r₀, hr₁, hr₀, fun hsame => ?_, ?_, ?_⟩
  · rw [heq₂.2.2]
    decide
  · exact absurd (heq₁.1.symm.trans hsame.1) (by decide)
  · rw [heq₁.2.2, heq₀.2.2]
    decide
  · rw [heq₁.2.2, heq₀.2.2]
    decide

end Mirage.Wasm.ShadowStack
