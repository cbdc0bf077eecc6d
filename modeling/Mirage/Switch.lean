import Mirage.Lib.FirstMatch
import Mirage.Wasm.IntValue
import Mirage.Wasm.Structured
import Mirage.X86.Site

/-!
# Switches

`Builder::switch_on` cuts the 64-bit case values of a switch to 32 bits, and each backend
widens them again: by their sign for a 64-bit scrutinee, with zeros for a narrower one,
which is held zero-extended. What a case is compared with (`caseImage`) is therefore not
always its value at the width of the scrutinee (`caseValue`): it is lost for a negative
value of a type narrower than 32 bits, and for a 64-bit value outside the signed 32-bit
range.

* `exec_switch`: the x86 compare chain goes to the first case by images.
* `enters_structuredSwitch`, `runCode_dispatchSwitch`: so do the two forms in WebAssembly.
* `switch_dispatches_iff`: all three go to the first case by values exactly when the
  lost cases are harmless (`FirstMatch.Harmless`).
* `negativeCase_lost`: a case for `-1` of an `i8` is never taken.
-/

namespace Mirage

open FirstMatch

/-! ## Case values -/

/-- The values and the blocks of the cases, one after the other. -/
def flattenCases (cases : List (BitVec 64 × BlockId)) : List Nat :=
  cases.flatMap fun (value, block) => [(value.setWidth 32).toNat, block]

/-- The instruction that `Builder::switch_on` emits. -/
def switchOn (scrutinee : ValueId) (default : BlockId) (cases : List (BitVec 64 × BlockId)) :
    Inst :=
  { op := .switch, a := scrutinee, b := default, args := flattenCases cases }

/-- The canonical form of a case value at the width of the scrutinee's type. -/
def caseValue (type : Ty) (value : BitVec 64) : BitVec 64 :=
  (value.setWidth (typeBits type 64)).setWidth 64

/-- What the backends make of the 32 bits that are left of a case value. -/
def caseImage (type : Ty) (value : BitVec 64) : BitVec 64 :=
  if type = .i64 then (value.setWidth 32).signExtend 64 else (value.setWidth 32).setWidth 64

theorem canonical_caseValue {type : Ty} (h : isInteger type = true) (value : BitVec 64) :
    Canonical type (caseValue type value) := by
  have hle : typeBits type 64 ≤ 64 := by
    cases type <;> first | (cases h; done) | decide
  rw [Canonical, caseValue, BitVec.toNat_setWidth_of_le hle]
  exact BitVec.isLt _

/-- No scrutinee is both the image of a lost case and the value of one. -/
theorem image_or_value {type : Ty} (h : isInteger type = true) (x : BitVec 64)
    (hx : Canonical type x) :
    (∀ v, caseImage type v = x → caseImage type v = caseValue type v) ∨
      ∀ v, caseValue type v = x → caseImage type v = caseValue type v := by
  by_cases hwide : type = .i64
  · subst hwide
    have hval : ∀ v, caseValue .i64 v = v := fun v => by simp [caseValue, typeBits]
    by_cases hkeep : (x.setWidth 32).signExtend 64 = x
    · refine .inr fun v hv => ?_
      rw [hval] at hv ⊢
      rw [hv, caseImage, if_pos rfl, hkeep]
    · refine .inl fun v hv => absurd ?_ hkeep
      rw [caseImage, if_pos rfl] at hv
      rw [← hv, setWidth_signExtend _ (by omega), BitVec.signExtend_eq]
  · refine .inl fun v hv => BitVec.eq_of_toNat_eq ?_
    have hle : typeBits type 64 ≤ 32 := by
      cases type <;> first | (cases h; done) | (exact absurd rfl hwide) | decide
    have himg : (caseImage type v).toNat = v.toNat % 2 ^ 32 := by
      rw [caseImage, if_neg hwide, BitVec.toNat_setWidth_of_le (by omega), BitVec.toNat_setWidth]
    have hmod : v.toNat % 2 ^ 32 % 2 ^ typeBits type 64 = v.toNat % 2 ^ typeBits type 64 :=
      Nat.mod_mod_of_dvd _ (pow_dvd_pow 2 hle)
    rw [Canonical, ← hv, himg] at hx
    rw [himg, caseValue, BitVec.toNat_setWidth_of_le (by omega), BitVec.toNat_setWidth, ← hmod,
      Nat.mod_eq_of_lt hx]

/-! ## The x86 compare chain -/

section X86

open X86 X86.Ctx

variable {env : Env} {m : Machine}

/-- A canonical scrutinee equals the image of a case exactly when the comparison at the
    width of its class finds them equal. -/
theorem setWidth_eq_image_iff {type : Ty} (h : isInteger type = true) (hn : type ≠ .i64)
    {x : BitVec 64} (hx : Canonical type x) (value : BitVec 64) :
    x.setWidth 32 = value.setWidth 32 ↔ caseImage type value = x := by
  rw [caseImage, if_neg hn]
  constructor
  · intro heq
    rw [← heq, setWidth_setWidth_eq (hx.lt_of_narrow h hn)]
  · intro heq
    rw [← heq, BitVec.setWidth_setWidth_of_le _ (by omega), BitVec.setWidth_eq]

theorem zf_cmp {n : Nat} (x y : BitVec n) : (Alu.flags .cmp x y).zf = decide (x = y) := by
  show (x - y == 0) = _
  rw [Bool.eq_iff_iff, beq_iff_eq, decide_eq_true_eq]
  constructor
  · intro h
    rw [← BitVec.sub_add_cancel x y, h]
    exact BitVec.zero_add y
  · rintro rfl
    exact BitVec.sub_self x

/-- The compares of a switch bind no label. -/
theorem switchCases_binds (wide : Bool) (r : Reg) (args : List Nat) (l : Label) :
    ∀ i ∈ switchCases wide r args, i.binds l = false := by
  induction args using switchCases.induct with
  | case1 value target rest ih =>
    rw [switchCases]
    intro i hi
    rcases List.mem_append.1 hi with hi | hi
    · cases wide <;> simp at hi <;> rcases hi with rfl | rfl <;> rfl
    · rcases List.mem_cons.1 hi with rfl | hi
      · rfl
      · exact ih i hi
  | case2 args hne =>
    rw [switchCases]
    · simp
    · exact hne

theorem exec_goto {code : List Instr} {l : Label} (h : ∀ i ∈ code, i.binds l = false)
    (m : Machine) : execFrom env (some l) code m = .goto l m := by
  have := execFrom_skip env h [] m
  rwa [List.append_nil] at this

/-- A constant in `rcx`, and the comparison with it. -/
theorem does_compareAt (env : Env) (m : Machine) (w : Width) {r : Reg} (hr : r ≠ .rcx) (y : BitVec 64) :
    Does env [.movRi .rcx y, .aluRr .cmp w r .rcx] {.rcx} ∅ ∅ m fun M =>
      M.flags.zf = decide ((m.gpr r).setWidth w.bits = y.setWidth w.bits) := by
  have hmov : Does env [.movRi .rcx y] {.rcx} ∅ ∅ m fun M => Sets .rcx y m M :=
    .single rfl rfl ((sets_setGpr m .rcx y).keeps rfl) (sets_setGpr m .rcx y)
  refine hmov.append (by simp) fun M _ hM => ?_
  rw [← hM.other hr, ← hM.value]
  exact .single rfl rfl (keeps_setFlags M _) (zf_cmp _ _)

/-- One comparison of the chain: the flags say whether the scrutinee is the image. -/
theorem does_compare (env : Env) {type : Ty} (hint : isInteger type = true) {r : Reg} (hr : r ≠ .rcx)
    (hx : Canonical type (m.gpr r)) (value : BitVec 64) :
    Does env (if decide (widthOf type = .w64) then
        [.movRi .rcx ((BitVec.ofNat 32 (value.setWidth 32).toNat).signExtend 64),
          .aluRr .cmp .w64 r .rcx]
      else [.movRi .rcx ((BitVec.ofNat 32 (value.setWidth 32).toNat).setWidth 64),
          .aluRr .cmp .w32 r .rcx]) {.rcx} ∅ ∅ m
      fun M => M.flags.zf = decide (caseImage type value = m.gpr r) := by
  have hword : BitVec.ofNat 32 (value.setWidth 32).toNat = value.setWidth 32 := by
    rw [BitVec.ofNat_toNat, BitVec.setWidth_eq]
  rw [hword]
  by_cases ht : type = .i64
  · subst ht
    have hiff : (m.gpr r).setWidth 64 = ((value.setWidth 32).signExtend 64).setWidth 64 ↔
        caseImage .i64 value = m.gpr r := by
      rw [caseImage, if_pos rfl, BitVec.setWidth_eq, BitVec.setWidth_eq, eq_comm]
    have h := does_compareAt env m .w64 hr ((value.setWidth 32).signExtend 64)
    simp only [Width.bits, hiff] at h
    exact h
  · have hn : decide (widthOf type = .w64) = false := by
      cases type <;> first | (cases hint; done) | (exact absurd rfl ht) | rfl
    have hiff : (m.gpr r).setWidth 32 = ((value.setWidth 32).setWidth 64).setWidth 32 ↔
        caseImage type value = m.gpr r := by
      rw [BitVec.setWidth_setWidth_of_le _ (by omega), BitVec.setWidth_eq]
      exact setWidth_eq_image_iff hint ht hx value
    have h := does_compareAt env m .w32 hr ((value.setWidth 32).setWidth 64)
    simp only [Width.bits, hiff] at h
    rw [hn]
    exact h

/-- The chain goes to the first case whose image is the scrutinee, else to the default. -/
theorem exec_switchCases (env : Env) {type : Ty} (hint : isInteger type = true) {r : Reg} (hr : r ≠ .rcx)
    (hx : Canonical type (m.gpr r)) (cases : List (BitVec 64 × BlockId)) (default : BlockId) :
    ∃ M, exec env (switchCases (widthOf type = .w64) r (flattenCases cases) ++
        [.jmp (.block default)]) m =
          .goto (.block (target (caseImage type) cases default (m.gpr r))) M ∧
      Keeps {.rcx} ∅ ∅ m M := by
  induction cases generalizing m with
  | nil => exact ⟨m, rfl, .refl _ _ _ m⟩
  | cons c cases ih =>
    obtain ⟨value, block⟩ := c
    obtain ⟨M, he, hk, hzf⟩ := does_compare env hint hr hx value
    have hM : M.gpr r = m.gpr r := hk.gpr r (by simpa using hr)
    have hflat : flattenCases ((value, block) :: cases) =
        (value.setWidth 32).toNat :: block :: flattenCases cases := rfl
    rw [hflat, switchCases, List.append_assoc, exec_append_of_next env he, target_cons,
      List.cons_append, exec, execFrom]
    simp only [Instr.control, Cond.holds, hzf, decide_eq_true_eq]
    split_ifs with heq
    · refine ⟨M, exec_goto (fun i hi => ?_) M, hk⟩
      rcases List.mem_append.1 hi with hi | hi
      · exact switchCases_binds _ _ _ _ i hi
      · rw [List.mem_singleton.1 hi]
        rfl
    · obtain ⟨M', he', hk'⟩ := ih (m := M) (by rwa [hM])
      rw [hM] at he'
      exact ⟨M', he', hk.trans hk' (by simp)⟩

section Site

variable {module : Module} {fn : Function} {mode : Mode} {b i : Nat} {block : Block} {a : ValueId}
  {default : BlockId} {cases : List (BitVec 64 × BlockId)}

/-- The scrutinee of a switch is not in the register of the compare chain: the switch
    kills it. -/
theorem scrutinee_ne_rcx (hb : fn.blocks[b]? = some block)
    (hi : block.insts[i]? = some (switchOn a default cases)) (ha : IsValue fn a)
    (hint : isInteger (fn.valueType a) = true) (hin : (context module fn mode).inReg a = true) :
    (context module fn mode).valGpr a ≠ .rcx := by
  have hcov : Covers fn a (posU (firstIndex fn b + i)) :=
    use_covers hb hi ha (by simp [forEachUse, valueOperands, switchOn])
  have hplaced : (context module fn mode).IntPlaced a :=
    ⟨placed_of_covers hcov, isFloat_of_isInteger hint⟩
  have hreg := hplaced.reg_eq hin
  intro heq
  rw [heq] at hreg
  have hkill : (PhysReg.gpr .rcx, ⟨posE (firstIndex fn b + i), posL (firstIndex fn b + i), false⟩) ∈
      buildKills module fn :=
    mem_buildKills hb hi (by simp [instKills, switchOn, kill])
  have := tolerable_of_kill hcov hreg hkill ⟨by simp [posE, posU], by simp [posU, posL]⟩
  exact absurd this.1 (by simp)

/-- The template of a switch goes to the first case whose image is the scrutinee. -/
theorem exec_switch (hb : fn.blocks[b]? = some block)
    (hi : block.insts[i]? = some (switchOn a default cases)) (ha : IsValue fn a)
    (hint : isInteger (fn.valueType a) = true)
    (hx : Canonical (fn.valueType a) ((context module fn mode).gprHome m a)) :
    ∃ M, exec env ((context module fn mode).emitSwitch (switchOn a default cases)) m =
        .goto (.block (target (caseImage (fn.valueType a)) cases default
          ((context module fn mode).gprHome m a))) M ∧
      Keeps {.rax, .rcx} ∅ ∅ m M := by
  have hne : (context module fn mode).inReg a = true → (context module fn mode).valGpr a ≠ .rcx :=
    scrutinee_ne_rcx hb hi ha hint
  have hsub : ({.rcx} : Set Reg) ⊆ {.rax, .rcx} := by simp
  have hcode : (context module fn mode).emitSwitch (switchOn a default cases) =
      (if (context module fn mode).inReg a then [] else (context module fn mode).gprInto a .rax) ++
      switchCases (widthOf (fn.valueType a) = .w64)
        (if (context module fn mode).inReg a then (context module fn mode).valGpr a else .rax)
        (flattenCases cases) ++ [.jmp (.block default)] := rfl
  rw [hcode]
  cases hin : (context module fn mode).inReg a with
  | true =>
    have hhome : (context module fn mode).gprHome m a = m.gpr ((context module fn mode).valGpr a) := by
      rw [gprHome, if_pos hin]
    rw [hhome] at hx ⊢
    simp only [if_true, List.nil_append]
    obtain ⟨M, he, hk⟩ := exec_switchCases env hint (hne hin) hx cases default
    exact ⟨M, he, hk.mono hsub le_rfl le_rfl⟩
  | false =>
    obtain ⟨M, he, hs⟩ := computes_gprInto env (context module fn mode) a .rax m
    rw [← hs.value] at hx ⊢
    obtain ⟨M', he', hk'⟩ := exec_switchCases env hint (by simp) hx cases default
    simp only [Bool.false_eq_true, if_false]
    rw [List.append_assoc, exec_append_of_next env he]
    refine ⟨M', he', ?_⟩
    exact (hs.keeps (by simp)).trans (hk'.mono hsub le_rfl le_rfl) (by simp)

end Site

end X86

/-! ## The forms in WebAssembly -/

section Wasm

open Wasm

variable {s : State} {type : Ty} {x : BitVec 64} {v : ValueId}

/-- One comparison leaves on the stack whether the scrutinee is the image of the case. -/
theorem run_switchCompare (hint : isInteger type = true) (hx : Canonical type x)
    (hv : s.locals v = localOf type x) (value : BitVec 64) :
    run (switchCompare (isI64Class type) v (value.setWidth 32).toNat) s =
      .ok (s.push (boolVal (decide (caseImage type value = x)))) := by
  have hword : BitVec.ofNat 32 (value.setWidth 32).toNat = value.setWidth 32 := by
    rw [BitVec.ofNat_toNat, BitVec.setWidth_eq]
  rw [switchCompare, hword]
  by_cases ht : type = .i64
  · subst ht
    have hwide : isI64Class .i64 = true := rfl
    have hiff : x = (value.setWidth 32).signExtend 64 ↔ caseImage .i64 value = x := by
      rw [caseImage, if_pos rfl, eq_comm]
    rw [if_pos hwide, run_get, hv, localOf_wide, run_const64, run_rel64, run_nil, RelOp.holds]
    simp only [hiff]
  · have hnarrow : isI64Class type = false := by simpa [isI64Class] using ht
    have hiff := setWidth_eq_image_iff hint ht hx value
    rw [hnarrow, if_neg (by simp), run_get, hv, localOf_narrow ht, run_const32, run_rel32, run_nil,
      RelOp.holds]
    simp only [hiff]

/-- A comparison and the `if` after it: the body runs when the case is taken. -/
theorem runCode_case (hint : isInteger type = true) (hx : Canonical type x)
    (hv : s.locals v = localOf type x) (value : BitVec 64) (body rest : List Code) :
    runCode ((switchCompare (isI64Class type) v (value.setWidth 32).toNat).map .op ++
        .ifVoid body :: rest) s =
      if caseImage type value = x then
        match (runCode body { s with stack := [] }).leaveIf s.stack with
        | .next s' => runCode rest s'
        | flow => flow
      else runCode rest s := by
  rw [runCode_ops, run_switchCompare hint hx hv]
  show runCode (.ifVoid body :: rest) _ = _
  rw [runCode, Code.run]
  by_cases h : caseImage type value = x
  · rw [if_pos h, decide_eq_true h]
    rfl
  · rw [if_neg h, decide_eq_false h]
    rfl

variable {cfg : Cfg} {nest : List NestEntry} {block default : BlockId}

/-- The structured cases enter the block of the first case whose image is the scrutinee,
    or else go on. -/
theorem enters_structuredCases (hint : isInteger type = true) (hx : Canonical type x)
    (hv : s.locals v = localOf type x) {cases : List (BitVec 64 × BlockId)} {code tail : List Code}
    (hcode : structuredCases cfg nest block (isI64Class type) v (flattenCases cases) = some code)
    (htail : (runCode tail s).Enters nest default s) :
    (runCode (code ++ tail) s).Enters nest (target (caseImage type) cases default x) s := by
  induction cases generalizing code with
  | nil =>
    cases hcode
    exact htail
  | cons c cases ih =>
    obtain ⟨value, block'⟩ := c
    have hflat : flattenCases ((value, block') :: cases) =
        (value.setWidth 32).toNat :: block' :: flattenCases cases := rfl
    rw [hflat, structuredCases, Option.bind_eq_bind, Option.bind_eq_some_iff] at hcode
    obtain ⟨body, hbody, hcode⟩ := hcode
    obtain ⟨rest, hrest, hcode⟩ := Option.bind_eq_some_iff.1 hcode
    cases hcode
    rw [List.append_assoc, List.cons_append, runCode_case hint hx hv, target_cons]
    split_ifs with heq
    · exact ((enters_doBranch hbody { s with stack := [] }).leaveIf s.stack).followed _
    · exact ih hrest

/-- The structured form enters the first case whose image is the scrutinee. -/
theorem enters_structuredSwitch {fn : Function} {a : ValueId}
    {cases : List (BitVec 64 × BlockId)} {code : List Code}
    (hint : isInteger (fn.valueType a) = true) (hx : Canonical (fn.valueType a) x)
    (hv : s.locals a = localOf (fn.valueType a) x)
    (hcode : structuredSwitch fn cfg nest block (switchOn a default cases) = some code) :
    (runCode code s).Enters nest (target (caseImage (fn.valueType a)) cases default x) s := by
  rw [structuredSwitch, Option.bind_eq_bind, Option.bind_eq_some_iff] at hcode
  obtain ⟨first, hfirst, hcode⟩ := hcode
  obtain ⟨last, hlast, hcode⟩ := Option.bind_eq_some_iff.1 hcode
  cases hcode
  exact enters_structuredCases hint hx hv hfirst (enters_doBranch hlast s)

/-- Going to a block by the dispatch loop stores it in the state local. -/
theorem runCode_dispatchTo {fn : Function} (hstate : (s.locals (stateLocal fn)).type = .i32)
    (block : BlockId) (extra : Nat) (b : BlockId) :
    runCode (dispatchTo fn block extra b) s =
      .br (loopDepth fn block extra) (s.setLocal (stateLocal fn) (.i32 (BitVec.ofNat 32 b))) := by
  have hrun : run [.i32Const (BitVec.ofNat 32 b), .localSet (stateLocal fn)] s =
      .ok (s.setLocal (stateLocal fn) (.i32 (BitVec.ofNat 32 b))) := by
    rw [run_const32, run_set hstate]
  have hcode : dispatchTo fn block extra b =
      [.i32Const (BitVec.ofNat 32 b), .localSet (stateLocal fn)].map .op ++
        [.br (loopDepth fn block extra)] := rfl
  rw [hcode, runCode_ops, hrun]
  rfl

/-- The dispatch form goes to the first case whose image is the scrutinee. -/
theorem runCode_dispatchSwitch {fn : Function} {a : ValueId} (cases : List (BitVec 64 × BlockId))
    (hint : isInteger (fn.valueType a) = true) (hx : Canonical (fn.valueType a) x)
    (hv : s.locals a = localOf (fn.valueType a) x)
    (hstate : (s.locals (stateLocal fn)).type = .i32) :
    runCode (dispatchSwitch fn block (switchOn a default cases)) s =
      .br (loopDepth fn block 0) (s.setLocal (stateLocal fn)
        (.i32 (BitVec.ofNat 32 (target (caseImage (fn.valueType a)) cases default x)))) := by
  show runCode (dispatchCases fn block (isI64Class (fn.valueType a)) a (flattenCases cases) ++
    dispatchTo fn block 0 default) s = _
  induction cases with
  | nil => exact runCode_dispatchTo hstate block 0 default
  | cons c cases ih =>
    obtain ⟨value, block'⟩ := c
    have hflat : flattenCases ((value, block') :: cases) =
        (value.setWidth 32).toNat :: block' :: flattenCases cases := rfl
    rw [hflat, dispatchCases, List.append_assoc, List.cons_append, runCode_case hint hx hv,
      target_cons]
    split_ifs with heq
    · rw [runCode_dispatchTo (s := { s with stack := [] }) hstate]
      rfl
    · exact ih

end Wasm

/-! ## Dispatch -/

/-- The three backends' forms of a switch go to the first case whose value is the
    scrutinee, whatever canonical value this has, and to the default when there is none. -/
structure SwitchDispatches (module : Module) (fn : Function) (mode : X86.Mode) (a : ValueId)
    (default : BlockId) (cases : List (BitVec 64 × BlockId)) : Prop where
  x86 : ∀ env (m : X86.Machine),
    Canonical (fn.valueType a) ((X86.context module fn mode).gprHome m a) →
    ∃ M, X86.exec env ((X86.context module fn mode).emitSwitch (switchOn a default cases)) m =
        .goto (.block (target (caseValue (fn.valueType a)) cases default
          ((X86.context module fn mode).gprHome m a))) M ∧
      X86.Keeps {.rax, .rcx} ∅ ∅ m M
  structured : ∀ cfg nest block code (s : Wasm.State) x, Canonical (fn.valueType a) x →
    s.locals a = Wasm.localOf (fn.valueType a) x →
    Wasm.structuredSwitch fn cfg nest block (switchOn a default cases) = some code →
    (Wasm.runCode code s).Enters nest (target (caseValue (fn.valueType a)) cases default x) s
  dispatch : ∀ block (s : Wasm.State) x, Canonical (fn.valueType a) x →
    s.locals a = Wasm.localOf (fn.valueType a) x →
    (s.locals (Wasm.stateLocal fn)).type = .i32 →
    Wasm.runCode (Wasm.dispatchSwitch fn block (switchOn a default cases)) s =
      .br (Wasm.loopDepth fn block 0) (s.setLocal (Wasm.stateLocal fn)
        (.i32 (BitVec.ofNat 32 (target (caseValue (fn.valueType a)) cases default x))))

/-- A machine whose home of a value is the given one. -/
theorem exists_gprHome (c : X86.Ctx) (v : ValueId) (x : BitVec 64) :
    ∃ m : X86.Machine, c.gprHome m v = x := by
  let m : X86.Machine := ⟨fun _ => x, fun _ => x, ⟨false, false, false, false, false⟩, fun _ => 0⟩
  refine ⟨m.setMem (m.mem.write (m.addr .rbp (c.valOff v)) 8 x), ?_⟩
  rw [X86.Ctx.gprHome]
  split_ifs
  · rfl
  · exact Mem.read_write_word

section

variable {module : Module} {fn : Function} {mode : X86.Mode} {b i : Nat} {block : Block}
  {a : ValueId} {default : BlockId} {cases : List (BitVec 64 × BlockId)}

/-- A switch that dispatches right finds the same case by images as by values. -/
theorem SwitchDispatches.target_eq (h : SwitchDispatches module fn mode a default cases)
    (hb : fn.blocks[b]? = some block) (hi : block.insts[i]? = some (switchOn a default cases))
    (ha : X86.IsValue fn a) (hint : isInteger (fn.valueType a) = true) {x : BitVec 64}
    (hx : Canonical (fn.valueType a) x) :
    target (caseImage (fn.valueType a)) cases default x =
      target (caseValue (fn.valueType a)) cases default x := by
  obtain ⟨m, rfl⟩ := exists_gprHome (X86.context module fn mode) a x
  let env : X86.Env := ⟨fun _ m => m, fun m => m, fun m => m, fun m => m.flags, fun _ => 0,
    fun _ _ _ _ => 0, fun _ _ _ => m.flags, fun _ _ _ => 0, fun _ _ => 0, fun _ _ _ => 0⟩
  obtain ⟨M, he, -⟩ := h.x86 env m hx
  obtain ⟨M', he', -⟩ : ∃ M', X86.exec env _ m = .goto (.block (target (caseImage _) _ _ _)) M' ∧ _ :=
    exec_switch hb hi ha hint hx
  rw [he'] at he
  injection he with hl
  injection hl

/-- A switch of a function dispatches right in both backends exactly when the cases whose
    values do not survive the 32 bits are harmless. -/
theorem switch_dispatches_iff (mode : X86.Mode) (hb : fn.blocks[b]? = some block)
    (hi : block.insts[i]? = some (switchOn a default cases)) (ha : X86.IsValue fn a)
    (hint : isInteger (fn.valueType a) = true) :
    SwitchDispatches module fn mode a default cases ↔
      Harmless (caseValue (fn.valueType a)) (caseImage (fn.valueType a)) cases default
        (Canonical (fn.valueType a)) := by
  rw [← target_eq_iff_harmless (canonical_caseValue hint) (image_or_value hint)]
  constructor
  · exact fun h x hx => h.target_eq hb hi ha hint hx
  · intro h
    refine ⟨fun env m hx => ?_, fun cfg nest blk code s x hx hv hcode => ?_,
      fun blk s x hx hv hstate => ?_⟩
    · rw [← h _ hx]
      exact exec_switch hb hi ha hint hx
    · rw [← h x hx]
      exact enters_structuredSwitch hint hx hv hcode
    · rw [← h x hx]
      exact runCode_dispatchSwitch cases hint hx hv hstate

end

/-- A function that switches on a byte, with a case for `-1`. -/
def negativeCaseFn : Function :=
  { name := "f", hasBody := true, values := [{ block := 0, type := .i8 }]
    blocks := [
      { insts := [{ op := .constInt, type := .i8, result := 0, imm := 255 },
        switchOn 0 1 [(-1, 2)]] },
      { insts := [{ op := .ret }] }, { insts := [{ op := .ret }] }] }

def negativeCaseModule : Module := { functions := [negativeCaseFn], signatures := [{}] }

/-- The iff at this switch. -/
theorem negativeCase_dispatches_iff :
    SwitchDispatches negativeCaseModule negativeCaseFn .linear 0 1 [(-1, 2)] ↔
      Harmless (caseValue .i8) (caseImage .i8) [(-1, 2)] 1 (Canonical .i8) :=
  switch_dispatches_iff (b := 0) (i := 1) .linear rfl rfl ⟨by decide, by decide⟩ rfl

/-- The byte `0xFF` is compared with `0xFFFFFFFF`, and goes to the default. -/
theorem negativeCase_lost :
    negativeCaseModule.Accepted ∧ negativeCaseFn ∈ negativeCaseModule.functions ∧
      (negativeCaseFn.blocks[0]?.bind (·.insts[1]?)) = some (switchOn 0 1 [(-1, 2)]) ∧
      ¬SwitchDispatches negativeCaseModule negativeCaseFn .linear 0 1 [(-1, 2)] := by
  refine ⟨by decide +kernel, List.mem_singleton.2 rfl, rfl, fun h => ?_⟩
  have := h.target_eq (b := 0) (i := 1) (x := 255) rfl rfl ⟨by decide, by decide⟩ rfl (by decide)
  exact absurd this (by decide)

end Mirage
