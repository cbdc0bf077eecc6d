import Mirage.Mir.Verify
import Mirage.X86.Emit
import Mirage.X86.Scan

/-!
# Soundness of the allocation

`LinearSound` is what the emitter relies on, at every point of the function:

* the allocator reports no error;
* two values live at one point are in different registers;
* no value live at an instruction is in a register the template of the
  instruction overwrites (`Ctx.clobbers`), except across calls in a register that is
  saved around them.

The first two hold of every function. The third needs `AsmCovered`: the registers
an asm block writes are reserved from the *names* in the block, through a table that
lacks the 16-bit and 8-bit names of `r8` to `r15`, so a block that writes one of
these under such a name, and does not list it as clobbered, overwrites whatever is
in it (see `Mirage.X86.AsmCoverage`).
-/

namespace Mirage.X86

variable {module : Module} {fn : Function}

/-! ## What templates overwrite -/

/-- The code of the asm block of an instruction, up to the commit of its result. -/
def Ctx.asmCode (c : Ctx) (inst : Inst) : List Instr :=
  let block := c.module.asmBlocks.getD inst.a {}
  let emitted := emitAsmCode (c.asmDisp inst.args) block.instructions
  emitted.1 ++
    if !emitted.2.2 || inst.result = noValue then []
    else match regByName block.resultRegister with
      | some reg => Ctx.canonicalize reg inst.type
      | none => []

/-- The registers the template of an instruction overwrites by name, wherever its
    operands and its result are. -/
def Ctx.clobbers (c : Ctx) (inst : Inst) : List PhysReg :=
  match inst.op with
  | .sdiv | .udiv | .srem | .urem => [.gpr .rax, .gpr .rdx]
  | .shl | .lshr | .ashr => [.gpr .rcx]
  | .stackAlloc => [.gpr .rax]
  | .switch => [.gpr .rax, .gpr .rcx]
  | .call | .callIndirect | .memCopy | .memSet | .frem =>
    callerSavedGprs.map .gpr ++ (List.finRange 16).map .xmm
  | .asm => ((c.asmCode inst).flatMap Instr.writes).map .gpr
  | _ => []

/-- The emission context of a function under an allocation mode. -/
def context (module : Module) (fn : Function) (mode : Mode) : Ctx :=
  ⟨module, fn, allocate module fn mode⟩

/-- The instruction writes its result after its clobbers. -/
def definesLate (inst : Inst) : Bool := isCallLike inst.op || inst.op == .asm

/-- The value is live at the instruction `i` of the block `b`: before it, or after
    it unless the instruction writes it late. -/
def LiveAround (fn : Function) (v : ValueId) (b i : Nat) (inst : Inst) : Prop :=
  LiveAt fn v b i ∨ LiveAt fn v b (i + 1) ∧ ¬(inst.result = v ∧ definesLate inst)

/-- The allocation of a function is sound. -/
structure LinearSound (module : Module) (fn : Function) : Prop where
  errors : (allocate module fn .linear).errors = []
  /-- Values live at one point are in different registers. -/
  apart : ∀ {b i block v w reg}, fn.blocks[b]? = some block → i < block.insts.length →
    IsValue fn v → IsValue fn w → LiveAt fn v b i → LiveAt fn w b i → v ≠ w →
    ((allocate module fn .linear).values v).reg = some reg →
    ((allocate module fn .linear).values w).reg ≠ some reg
  /-- A value live at an instruction survives its clobbers. -/
  clobbers : ∀ {b i block inst v reg}, fn.blocks[b]? = some block →
    block.insts[i]? = some inst → IsValue fn v → LiveAround fn v b i inst →
    ((allocate module fn .linear).values v).reg = some reg →
    reg ∈ (context module fn .linear).clobbers inst →
    isCallLike inst.op = true ∧ ((allocate module fn .linear).values v).saveAroundCalls = true

/-- The register is reserved at an asm block: the block lists it as clobbered, or
    names it under a name of the table. The frame registers are never allocated. -/
def AsmReserved (block : AsmBlock) (r : Reg) : Prop :=
  r = .rsp ∨ r = .rbp ∨ ∃ family ∈ asmFamilies block, familyReg family = some (.gpr r)

/-- The registers the asm blocks of the function write are all reserved. -/
def AsmCovered (module : Module) (fn : Function) : Prop :=
  ∀ inst ∈ layout fn, inst.op = .asm →
    ∀ r ∈ ((context module fn .linear).asmCode inst).flatMap Instr.writes,
      AsmReserved (module.asmBlocks.getD inst.a {}) r

/-! ## Covered values in one register -/

/-- The assignment of a value with an interval. -/
theorem assigned_of_covers (module : Module) (mode : Mode) {v pos : Nat} (h : Covers fn v pos) :
    ∃ interval ∈ buildIntervals fn, interval.value = v ∧ interval.start ≤ pos ∧
      pos ≤ interval.end ∧ Assigned (kills module fn) interval
        (allocate module fn mode).spillAreaCount ((allocate module fn mode).values v) := by
  obtain ⟨interval, hi, rfl, hs, he⟩ := h
  exact ⟨interval, hi, rfl, hs, he, (allocate_spec module fn mode).assigned interval hi⟩

/-- Two values covered at one position are in different registers. -/
theorem reg_ne_of_covers {mode : Mode} {v w pos : Nat} {reg : PhysReg} (hv : Covers fn v pos)
    (hw : Covers fn w pos) (hne : v ≠ w)
    (hreg : ((allocate module fn mode).values v).reg = some reg) :
    ((allocate module fn mode).values w).reg ≠ some reg := by
  intro hreg'
  obtain ⟨i, hi, rfl, hs, he⟩ := hv
  obtain ⟨j, hj, rfl, hs', he'⟩ := hw
  have hsymm : Std.Symm fun i j : Interval =>
      ((allocate module fn mode).values i.value).reg =
        ((allocate module fn mode).values j.value).reg →
      ((allocate module fn mode).values i.value).reg ≠ none → i.Apart j :=
    ⟨fun i j h h1 h2 => (h h1.symm (h1 ▸ h2)).symm⟩
  have hapart := (allocate_spec module fn mode).apart.forall hi hj
    (fun h => hne (congrArg Interval.value h)) (hreg.trans hreg'.symm) (by rw [hreg]; simp)
  rcases hapart with h | h <;> omega

/-- A register whose kill range contains a covered position is not assigned, unless
    the range is of a call the value is saved around. -/
theorem tolerable_of_kill {mode : Mode} {v pos : Nat} {reg : PhysReg} {k : KillRange}
    (hv : Covers fn v pos) (hreg : ((allocate module fn mode).values v).reg = some reg)
    (hk : (reg, k) ∈ buildKills module fn) (hpos : k.fromPos ≤ pos ∧ pos ≤ k.toPos) :
    k.isCallClobber = true ∧ ((allocate module fn mode).values v).saveAroundCalls = true := by
  obtain ⟨interval, -, -, hs, he, hassigned⟩ :=
    assigned_of_covers module mode hv
  generalize (allocate module fn mode).values v = a at hreg hassigned
  cases hassigned with
  | spilled => simp at hreg
  | inReg reg' save _ hkill _ =>
    obtain rfl : reg' = reg := Option.some.inj hreg
    obtain ⟨htol, hsave⟩ := hkill k (mem_kills.2 hk) ⟨by omega, by omega⟩
    exact ⟨htol.1, Option.ne_none_iff_isSome.1 hsave⟩

/-! ## The kill ranges of the templates -/

theorem layout_getElem? {b i : Nat} {block : Block} {inst : Inst}
    (hb : fn.blocks[b]? = some block) (hi : block.insts[i]? = some inst) :
    (layout fn)[firstIndex fn b + i]? = some inst := by
  rw [layout, firstIndex]
  generalize fn.blocks = blocks at hb
  induction blocks generalizing b with
  | nil => simp at hb
  | cons block' blocks ih =>
    have hlt := (List.getElem?_eq_some_iff.1 hi).1
    cases b with
    | zero =>
      obtain rfl : block' = block := by simpa using hb
      simpa [List.getElem?_append_left hlt] using hi
    | succ b =>
      rw [List.getElem?_cons_succ] at hb
      rw [List.flatMap_cons, List.take_succ_cons, List.map_cons, List.sum_cons,
        List.getElem?_append_right (by omega), ← ih hb]
      congr 1
      omega

/-- The kill ranges of an instruction are among those of the function. -/
theorem mem_buildKills {b i : Nat} {block : Block} {inst : Inst}
    (hb : fn.blocks[b]? = some block) (hi : block.insts[i]? = some inst)
    {k : PhysReg × KillRange} (hk : k ∈ instKills module inst (firstIndex fn b + i)) :
    k ∈ buildKills module fn := by
  rw [buildKills, List.mem_flatMap]
  exact ⟨(inst, firstIndex fn b + i),
    List.mem_zipIdx_iff_getElem?.2 (layout_getElem? hb hi), hk⟩

theorem mem_kill {reg : PhysReg} {range : KillRange} (h : reg ≠ .gpr .rsp ∧ reg ≠ .gpr .rbp) :
    (reg, range) ∈ kill (some reg) range := by
  rw [kill, if_neg (by tauto)]
  simp

/-- What a template overwrites is killed at its positions, up to the point where
    straight-line results are written; only calls are marked as calls. -/
theorem exists_kill_of_clobbers {inst : Inst} {reg : PhysReg} (index : Nat)
    (hasm : inst.op = .asm →
      ∀ r ∈ ((context module fn .linear).asmCode inst).flatMap Instr.writes,
        AsmReserved (module.asmBlocks.getD inst.a {}) r)
    (hframe : reg ≠ .gpr .rsp ∧ reg ≠ .gpr .rbp)
    (h : reg ∈ (context module fn .linear).clobbers inst) :
    ∃ k, (reg, k) ∈ instKills module inst index ∧ k.fromPos = posE index ∧ posD index ≤ k.toPos ∧
      (k.isCallClobber = true → isCallLike inst.op = true) := by
  have hDL : posD index ≤ posL index := by simp [posD, posL]
  rw [Ctx.clobbers] at h
  split at h
  iterate 4
    rename_i hop
    simp only [List.mem_cons, List.not_mem_nil, or_false] at h
    simp only [instKills, hop, List.mem_append]
    rcases h with rfl | rfl
    · exact ⟨_, .inl (mem_kill hframe), rfl, le_refl _, by simp⟩
    · exact ⟨_, .inr (mem_kill hframe), rfl, le_refl _, by simp⟩
  iterate 3
    rename_i hop
    obtain rfl := List.mem_singleton.1 h
    simp only [instKills, hop]
    exact ⟨_, mem_kill hframe, rfl, le_refl _, by simp⟩
  · rename_i hop
    obtain rfl := List.mem_singleton.1 h
    simp only [instKills, hop]
    exact ⟨_, mem_kill hframe, rfl, le_refl _, by simp⟩
  · rename_i hop
    simp only [List.mem_cons, List.not_mem_nil, or_false] at h
    simp only [instKills, hop, List.mem_append]
    rcases h with rfl | rfl
    · exact ⟨_, .inl (mem_kill hframe), rfl, hDL, by simp⟩
    · exact ⟨_, .inr (mem_kill hframe), rfl, hDL, by simp⟩
  iterate 5
    rename_i hop
    simp only [instKills, hop, List.mem_append, List.mem_flatMap]
    refine ⟨⟨posE index, posD index, true⟩, ?_, rfl, le_refl _, fun _ => by simp [isCallLike]⟩
    rcases List.mem_append.1 h with h | h
    · obtain ⟨r, hr, rfl⟩ := List.mem_map.1 h
      exact .inl ⟨r, hr, mem_kill hframe⟩
    · obtain ⟨x, hx, rfl⟩ := List.mem_map.1 h
      exact .inr ⟨x, hx, mem_kill hframe⟩
  · rename_i hop
    obtain ⟨r, hr, rfl⟩ := List.mem_map.1 h
    simp only [instKills, hop, List.mem_flatMap]
    rcases hasm hop r hr with rfl | rfl | ⟨family, hfam, hreg⟩
    · exact absurd rfl hframe.1
    · exact absurd rfl hframe.2
    · exact ⟨⟨posE index, posL index, false⟩, ⟨family, hfam, by rw [hreg]; exact mem_kill hframe⟩,
        rfl, hDL, by simp⟩
  · simp at h

/-- The frame registers are not assigned to anything. -/
theorem reg_ne_frame {mode : Mode} {v : ValueId} {reg : PhysReg}
    (hreg : ((allocate module fn mode).values v).reg = some reg) :
    reg ≠ .gpr .rsp ∧ reg ≠ .gpr .rbp := by
  by_cases hv : ∃ i ∈ buildIntervals fn, i.value = v
  · obtain ⟨i, hi, rfl⟩ := hv
    have hassigned := (allocate_spec module fn mode).assigned i hi
    generalize (allocate module fn mode).values i.value = a at hreg hassigned
    cases hassigned with
    | spilled => simp at hreg
    | inReg reg' save hmem _ _ =>
      obtain rfl : reg' = reg := Option.some.inj hreg
      have : ∀ r ∈ xmmOrder ++ gprPreferCallee ++ gprPreferScratchy,
          r ≠ .gpr .rsp ∧ r ≠ .gpr .rbp := by decide
      refine this _ ?_
      simp only [List.mem_append]
      rw [registerOrder] at hmem
      split_ifs at hmem <;> simp [hmem]
  · push Not at hv
    rw [(allocate_spec module fn mode).default v hv] at hreg
    simp at hreg

/-! ## Soundness -/

/-- A value live at an instruction is covered at one of the positions the
    instruction kills. -/
theorem LiveAround.covers {b i : Nat} {block : Block} {inst : Inst} {v : ValueId}
    (h : LiveAround fn v b i inst) (hb : fn.blocks[b]? = some block)
    (hi : block.insts[i]? = some inst) (hv : IsValue fn v) :
    ∃ pos, Covers fn v pos ∧ posE (firstIndex fn b + i) ≤ pos ∧
      pos ≤ posD (firstIndex fn b + i) := by
  have hlt := (List.getElem?_eq_some_iff.1 hi).1
  rcases h with h | ⟨h, hlate⟩
  · exact ⟨_, live_covers h hb hv hlt, le_refl _, by simp [posE, posD]⟩
  · by_cases hr : inst.result = v
    · -- a result written early is covered where it is written
      subst hr
      have hcov := def_covers hb hi hv
      have hearly : definesLate inst = false := by simpa using hlate
      rw [definesLate] at hearly
      rw [defPos, hearly] at hcov
      exact ⟨_, hcov, by simp [posE, posU], by simp [posU, posD]⟩
    · exact ⟨_, live_covers (.skip hb hi hr h) hb hv hlt, le_refl _, by simp [posE, posD]⟩

/-- The allocation of a function whose asm blocks only write registers they reserve
    is sound. -/
theorem linearSound_of_asmCovered (hasm : AsmCovered module fn) : LinearSound module fn where
  errors := allocate_errors module fn .linear
  apart := fun hb hi hv hw hlv hlw hne hreg =>
    reg_ne_of_covers (live_covers hlv hb hv hi) (live_covers hlw hb hw hi) hne hreg
  clobbers := by
    intro b i block inst v reg hb hi hv hlive hreg hclob
    obtain ⟨pos, hcov, hE, hD⟩ := hlive.covers hb hi hv
    have hmem : inst ∈ layout fn := List.mem_of_getElem? (layout_getElem? hb hi)
    obtain ⟨k, hk, hfrom, hto, hcall⟩ := exists_kill_of_clobbers (firstIndex fn b + i)
      (fun hop => hasm inst hmem hop) (reg_ne_frame hreg) hclob
    obtain ⟨hclobber, hsave⟩ := tolerable_of_kill hcov hreg (mem_buildKills hb hi hk)
      ⟨by omega, by omega⟩
    exact ⟨hcall hclobber, hsave⟩

end Mirage.X86
