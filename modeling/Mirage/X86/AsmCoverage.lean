import Mirage.X86.AllocSound

/-!
# Which asm blocks keep the allocation sound

The allocation of every function is sound exactly when every asm block it may use is
*covered*: each register its code writes is listed as clobbered, or named, as an
operand or the result, under a name the allocator's table knows
(`linearSound_iff`).

For the converse, `probe` is a function around one asm block that keeps a value in
every register the allocator does not reserve there: fourteen constants live across
the block compete for fourteen registers, and a register that is not reserved is
only left out when a live value has it already.
-/

namespace Mirage.X86

/-! ## What a block writes -/

/-- The operand with its displacement forgotten. -/
def AsmArg.atZero (arg : AsmArg) : AsmArg := { arg with disp := 0 }

theorem asmWidth_atZero (args : List AsmArg) : asmWidth (args.map AsmArg.atZero) = asmWidth args := by
  have h : ∀ p : AsmArg → Bool, (∀ a, p a.atZero = p a) →
      ((args.map AsmArg.atZero).find? p).map AsmArg.width = (args.find? p).map AsmArg.width := by
    intro p hp
    rw [List.find?_map]
    have : p ∘ AsmArg.atZero = p := funext hp
    rw [this]
    cases args.find? p <;> rfl
  have h1 := h (fun arg => !arg.isMemory && !arg.isImm) fun _ => rfl
  have h2 := h (·.isMemory) fun _ => rfl
  simp only [asmWidth]
  cases hr : args.find? (fun arg => !arg.isMemory && !arg.isImm) <;>
    cases hr' : (args.map AsmArg.atZero).find? (fun arg => !arg.isMemory && !arg.isImm) <;>
    simp only [hr, hr', Option.map_none, Option.map_some, Option.some.injEq, reduceCtorEq] at h1
  · cases hm : args.find? (·.isMemory) <;>
      cases hm' : (args.map AsmArg.atZero).find? (·.isMemory) <;>
      simp only [hm, hm', Option.map_none, Option.map_some, Option.some.injEq, reduceCtorEq] at h2
    · rfl
    · exact h2
  · exact h1

/-- The registers an asm instruction writes do not depend on where its memory
    operands are. -/
theorem emitAsmInstruction_writes (m : String) (args : List AsmArg) :
    (emitAsmInstruction m (args.map AsmArg.atZero)).map Instr.writes =
      (emitAsmInstruction m args).map Instr.writes := by
  have htwo : ∀ w dst src, (emitAsmTwo m w (AsmArg.atZero dst) (AsmArg.atZero src)).map Instr.writes =
      (emitAsmTwo m w dst src).map Instr.writes := by
    intro w dst src
    obtain ⟨dm, dd, dr, di, dimm, dw⟩ := dst
    obtain ⟨sm, sd, sr, si, simm, sw⟩ := src
    cases dm <;> cases sm <;> cases dimm <;> cases simm <;> cases h : aluOps m <;>
      simp [emitAsmTwo, AsmArg.atZero, h, apply_ite (Option.map Instr.writes), Instr.writes]
  have hone : ∀ w arg, (emitAsmOne m w (AsmArg.atZero arg)).map Instr.writes =
      (emitAsmOne m w arg).map Instr.writes := by
    intro w arg
    obtain ⟨am, ad, ar, ai, aimm, aw⟩ := arg
    cases am <;> cases h : unarySlots m <;>
      simp [emitAsmOne, AsmArg.atZero, h, apply_ite (Option.map Instr.writes), Instr.writes]
  have hw := asmWidth_atZero args
  rcases args with _ | ⟨arg, _ | ⟨src, _ | ⟨third, rest⟩⟩⟩
  · rfl
  · simp only [emitAsmInstruction, List.map_cons, List.map_nil, apply_ite (Option.map Instr.writes),
      hone] at hw ⊢
    rw [hw]
  · simp only [emitAsmInstruction, List.map_cons, List.map_nil, apply_ite (Option.map Instr.writes),
      htwo] at hw ⊢
    rw [hw]
  · rfl

/-- Every variable operand resolves. -/
def resolved (_ : Nat) : Option Int := some 0

theorem asmArg_resolved {disp : Nat → Option Int} {operand : AsmOperand} {arg : AsmArg}
    (h : asmArg disp operand = .ok arg) : asmArg resolved operand = .ok arg.atZero := by
  rw [asmArg] at h ⊢
  cases hk : operand.kind with
  | register =>
    simp only [hk] at h ⊢
    split at h <;> cases h
    simp_all [AsmArg.atZero]
  | immediate =>
    simp only [hk] at h ⊢
    cases h
    rfl
  | «variable» =>
    simp only [hk] at h ⊢
    split at h <;> cases h
    rfl

/-- Operands that resolve under some displacements resolve under `resolved`. -/
theorem argValues_resolved {disp : Nat → Option Int} {operands : List AsmOperand}
    (h : argErrors (operands.map (asmArg disp)) = []) :
    argErrors (operands.map (asmArg resolved)) = [] ∧
      argValues (operands.map (asmArg resolved)) =
        (argValues (operands.map (asmArg disp))).map AsmArg.atZero := by
  induction operands with
  | nil => exact ⟨rfl, rfl⟩
  | cons operand operands ih =>
    cases hop : asmArg disp operand with
    | error e => simp [argErrors, hop] at h
    | ok arg =>
      have h' : argErrors (operands.map (asmArg disp)) = [] := by
        simpa [argErrors, hop] using h
      obtain ⟨he, hv⟩ := ih h'
      simp only [argErrors, argValues] at he hv
      simp [argErrors, argValues, asmArg_resolved hop, hop, he, hv]

/-- What the code of a block writes is written when all operands resolve; -/
theorem emitAsmCode_writes_subset (disp : Nat → Option Int) (instructions : List AsmInstruction) :
    (∀ r ∈ (emitAsmCode disp instructions).1.flatMap Instr.writes,
      r ∈ (emitAsmCode resolved instructions).1.flatMap Instr.writes) ∧
    ((emitAsmCode disp instructions).2.2 = true →
      (emitAsmCode resolved instructions).2.2 = true) := by
  induction instructions with
  | nil => exact ⟨fun r hr => hr, fun h => h⟩
  | cons instruction rest ih =>
    simp only [emitAsmCode]
    by_cases he : argErrors (instruction.operands.map (asmArg disp)) = []
    · obtain ⟨he', hv⟩ := argValues_resolved he
      have hw := emitAsmInstruction_writes instruction.mnemonic
        (argValues (instruction.operands.map (asmArg disp)))
      rw [← hv] at hw
      rw [if_neg (not_not.2 he), if_neg (not_not.2 he')]
      cases h1 : emitAsmInstruction instruction.mnemonic
          (argValues (instruction.operands.map (asmArg disp))) <;>
        cases h2 : emitAsmInstruction instruction.mnemonic
          (argValues (instruction.operands.map (asmArg resolved))) <;>
        simp only [h1, h2, Option.map_none, Option.map_some, Option.some.injEq, reduceCtorEq] at hw
      · exact ih
      · refine ⟨fun r hr => ?_, ih.2⟩
        simp only [List.flatMap_cons, List.mem_append] at hr ⊢
        exact hr.imp (fun h => hw ▸ h) (ih.1 r)
    · rw [if_pos he]
      simp

/-- and conversely when they do. -/
theorem emitAsmCode_writes_eq {disp : Nat → Option Int} {instructions : List AsmInstruction}
    (hres : ∀ ins ∈ instructions, ∀ o ∈ ins.operands, o.kind = .variable →
      ∃ d, disp o.argIndex = some d) :
    (emitAsmCode disp instructions).1.flatMap Instr.writes =
        (emitAsmCode resolved instructions).1.flatMap Instr.writes ∧
      (emitAsmCode disp instructions).2.2 = (emitAsmCode resolved instructions).2.2 := by
  induction instructions with
  | nil => exact ⟨rfl, rfl⟩
  | cons instruction rest ih =>
    have ih := ih fun ins hins => hres ins (List.mem_cons_of_mem _ hins)
    simp only [emitAsmCode]
    by_cases he : argErrors (instruction.operands.map (asmArg disp)) = []
    · obtain ⟨he', hv⟩ := argValues_resolved he
      have hw := emitAsmInstruction_writes instruction.mnemonic
        (argValues (instruction.operands.map (asmArg disp)))
      rw [← hv] at hw
      rw [if_neg (not_not.2 he), if_neg (not_not.2 he')]
      cases h1 : emitAsmInstruction instruction.mnemonic
          (argValues (instruction.operands.map (asmArg disp))) <;>
        cases h2 : emitAsmInstruction instruction.mnemonic
          (argValues (instruction.operands.map (asmArg resolved))) <;>
        simp only [h1, h2, Option.map_none, Option.map_some, Option.some.injEq, reduceCtorEq] at hw
      · exact ih
      · simp only [List.flatMap_cons]
        exact ⟨by rw [hw, ih.1], ih.2⟩
    · -- a failed operand is a register without a name, which fails either way
      have he' : argErrors (instruction.operands.map (asmArg resolved)) ≠ [] := by
        intro h0
        apply he
        have hres' := hres instruction List.mem_cons_self
        generalize instruction.operands = operands at h0 hres'
        induction operands with
        | nil => rfl
        | cons o operands iho =>
          have hrest := iho
            (by
              cases ho : asmArg resolved o <;> simp_all [argErrors])
            fun o' ho' => hres' o' (List.mem_cons_of_mem _ ho')
          have hok : ∃ a, asmArg disp o = .ok a := by
            cases ho : asmArg resolved o with
            | error e => simp [argErrors, ho] at h0
            | ok a =>
              rw [asmArg] at ho ⊢
              cases hk : o.kind with
              | register => simp only [hk] at ho ⊢; exact ⟨a, ho⟩
              | immediate => simp only [hk] at ho ⊢; exact ⟨a, ho⟩
              | «variable» =>
                obtain ⟨d, hd⟩ := hres' o List.mem_cons_self hk
                simp only [hd]
                exact ⟨_, rfl⟩
          obtain ⟨a, ha⟩ := hok
          simpa [argErrors, ha] using hrest
      rw [if_pos he, if_pos he']
      simp

/-- The registers an asm block writes, result included. -/
def asmBlockWrites (block : AsmBlock) : List Reg :=
  (emitAsmCode resolved block.instructions).1.flatMap Instr.writes ++
    if (emitAsmCode resolved block.instructions).2.2 then (regByName block.resultRegister).toList
    else []

/-- Every register the block writes is reserved by the allocator. -/
def AsmBlockCovered (block : AsmBlock) : Prop := ∀ r ∈ asmBlockWrites block, AsmReserved block r

theorem canonicalize_writes {reg r : Reg} {type : Ty}
    (h : r ∈ (Ctx.canonicalize reg type).flatMap Instr.writes) : r = reg := by
  rw [Ctx.canonicalize] at h
  cases hw : widthOf type with
  | w64 => simp [hw] at h
  | w8 | w16 | w32 =>
    simp only [hw] at h
    simpa [Instr.writes] using h

/-- The template of an asm instruction writes what its block writes. -/
theorem asmCode_writes_subset (c : Ctx) (inst : Inst) :
    ∀ r ∈ (c.asmCode inst).flatMap Instr.writes,
      r ∈ asmBlockWrites (c.module.asmBlocks.getD inst.a {}) := by
  intro r hr
  simp only [Ctx.asmCode, List.flatMap_append, List.mem_append] at hr
  obtain ⟨hsub, hdone⟩ := emitAsmCode_writes_subset (c.asmDisp inst.args)
    (c.module.asmBlocks.getD inst.a {}).instructions
  rw [asmBlockWrites, List.mem_append]
  rcases hr with hr | hr
  · exact .inl (hsub r hr)
  · right
    split_ifs at hr with hnone
    · simp at hr
    · rw [Bool.or_eq_true, not_or, Bool.not_eq_true', Bool.not_eq_false] at hnone
      rw [if_pos (hdone hnone.1)]
      generalize regByName (c.module.asmBlocks.getD inst.a {}).resultRegister = reg at hr ⊢
      cases reg with
      | none => simp at hr
      | some reg =>
        rw [canonicalize_writes hr]
        simp

/-! ## The probe -/

/-- One more than the largest argument a block refers to. -/
def argCount (block : AsmBlock) : Nat :=
  (block.instructions.flatMap (·.operands)).foldr (fun o n => max (o.argIndex + 1) n) 0

theorem argIndex_lt_argCount {block : AsmBlock} {ins : AsmInstruction} {o : AsmOperand}
    (hins : ins ∈ block.instructions) (ho : o ∈ ins.operands) : o.argIndex < argCount block := by
  have hmem : o ∈ block.instructions.flatMap (·.operands) := List.mem_flatMap.2 ⟨ins, hins, ho⟩
  rw [argCount]
  generalize block.instructions.flatMap (·.operands) = operands at hmem
  induction operands with
  | nil => simp at hmem
  | cons o' rest ih =>
    rw [List.foldr_cons]
    rcases List.mem_cons.1 hmem with rfl | hmem
    · omega
    · have := ih hmem
      omega

/-- The asm instruction of the probe: every argument is the address of its slot. -/
def probeAsm (k argc : Nat) : Inst :=
  { op := .asm, type := .i8, result := 15, a := k, args := List.replicate (argc + 1) 0 }

/-- A slot address, fourteen constants, the asm block, and a jump that passes the
    constants on. -/
def probe (k argc : Nat) : Function :=
  { name := "probe", hasBody := true, slots := [{ size := 8 }]
    values := { block := 0, type := .ptr } :: List.replicate 14 { block := 0, type := .i64 } ++
      { block := 0, type := .i8 } :: List.replicate 14 { block := 1, type := .i64, isParam := true }
    blocks := [
      { insts := { op := .slotAddr, type := .ptr, result := 0, a := 0 } ::
          (List.range 14).map (fun i => { op := .constInt, type := .i64, result := i + 1 }) ++
          [probeAsm k argc, { op := .jump, a := 1, args := (List.range 14).map (· + 1) }] },
      { params := (List.range 14).map (· + 16), insts := [{ op := .ret }] }] }

def probeModule (blocks : List AsmBlock) (k argc : Nat) : Module :=
  { functions := [probe k argc], signatures := [{}], asmBlocks := blocks }

variable {blocks : List AsmBlock} {block : AsmBlock} {k : Nat}

/-- The verifier accepts the probe. -/
theorem probeModule_accepted (hk : blocks[k]? = some block) :
    (probeModule blocks k (argCount block)).Accepted := by
  have hasm : ∀ loc, Verifier.checkInst (probeModule blocks k (argCount block))
      (probe k (argCount block)) {} (probeAsm k (argCount block)) loc = [] := by
    intro loc
    have hk' : (probeModule blocks k (argCount block)).asmBlocks[k]? = some block := hk
    simp only [Verifier.checkInst, probeAsm, hk', List.append_eq_nil_iff, List.flatMap_eq_nil_iff]
    refine ⟨fun arg harg => ?_, fun ins hins => ?_⟩
    · rw [List.eq_of_mem_replicate harg]
      simp [Verifier.checkOperandType, Verifier.valueOk, noValue, probe, Function.valueType]
    · rw [Verifier.checkAsmOperands, List.map_eq_nil_iff, List.filter_eq_nil_iff]
      intro o ho hc
      simp only [List.length_replicate, Bool.and_eq_true, decide_eq_true_eq] at hc
      have := argIndex_lt_argCount hins ho
      omega
  have hconst : ∀ inst ∈ (probe k (argCount block)).blocks.flatMap (·.insts), ∀ loc,
      Verifier.checkInst (probeModule blocks k (argCount block)) (probe k (argCount block)) {} inst
        loc = [] := by
    intro inst hinst loc
    simp only [probe, List.flatMap_cons, List.flatMap_nil, List.cons_append, List.mem_cons,
      List.mem_append, List.mem_map, List.not_mem_nil, or_false, List.append_nil] at hinst
    rcases hinst with rfl | (⟨i, -, rfl⟩ | rfl | rfl) | rfl
    · rfl
    · rfl
    · exact hasm loc
    · rfl
    · rfl
  have hcheck : ∀ bi blk, (probe k (argCount block)).blocks[bi]? = some blk →
      Verifier.checkBlock (probeModule blocks k (argCount block)) (probe k (argCount block)) {} bi
        blk = [] := by
    intro bi blk hbi
    have hinsts : ∀ loc, (blk.insts.flatMap fun inst => Verifier.checkInst
        (probeModule blocks k (argCount block)) (probe k (argCount block)) {} inst loc) = [] := by
      intro loc
      rw [List.flatMap_eq_nil_iff]
      exact fun inst hi => hconst inst
        (List.mem_flatMap.2 ⟨blk, List.mem_of_getElem? hbi, hi⟩) loc
    match bi, hbi with
    | 0, hbi => 
      cases hbi
      simp only [Verifier.checkBlock, hinsts]
      rfl
    | 1, hbi =>
      cases hbi
      simp only [Verifier.checkBlock, hinsts]
      rfl
  simp only [Module.Accepted, verify, List.flatMap_eq_nil_iff, List.map_eq_nil_iff]
  rintro ⟨fn, i⟩ hfn
  obtain ⟨rfl, -⟩ : fn = probe k (argCount block) ∧ i = 0 := by
    simpa [probeModule] using hfn
  simp only [Verifier.checkFunction]
  rw [if_neg (by simp [probe]), if_neg (by simp [probe])]
  show List.flatMap _ _ = []
  rw [List.flatMap_eq_nil_iff]
  rintro ⟨blk, bi⟩ hblk
  exact hcheck bi blk (List.mem_zipIdx_iff_getElem?.1 hblk)

/-! ## Every register is in use at the probe's block -/

/-- A block is emitted in the probe as it is with all operands resolved. -/
theorem mem_probe_clobbers (hk : blocks[k]? = some block) {r : Reg} (hr : r ∈ asmBlockWrites block) :
    .gpr r ∈ (context (probeModule blocks k (argCount block)) (probe k (argCount block))
      .linear).clobbers (probeAsm k (argCount block)) := by
  set c := context (probeModule blocks k (argCount block)) (probe k (argCount block)) .linear with hc
  have hblock : c.module.asmBlocks.getD k {} = block := by
    show blocks.getD k {} = block
    rw [List.getD_eq_getElem?_getD, hk, Option.getD_some]
  have hres : ∀ ins ∈ block.instructions, ∀ o ∈ ins.operands, o.kind = .variable →
      ∃ d, c.asmDisp (probeAsm k (argCount block)).args o.argIndex = some d := by
    intro ins hins o ho _
    have hlt := argIndex_lt_argCount hins ho
    have harg : (probeAsm k (argCount block)).args[o.argIndex]? = some 0 := by
      rw [probeAsm, List.getElem?_replicate, if_pos (by omega)]
    exact ⟨c.offsetOf (.slot 0), by rw [Ctx.asmDisp, harg]; rfl⟩
  obtain ⟨hcode, hdone⟩ := emitAsmCode_writes_eq hres
  show PhysReg.gpr r ∈ ((c.asmCode (probeAsm k (argCount block))).flatMap Instr.writes).map .gpr
  refine List.mem_map_of_mem ?_
  simp only [Ctx.asmCode, List.flatMap_append, List.mem_append]
  rw [show (probeAsm k (argCount block)).a = k from rfl, hblock, hcode, hdone]
  rw [asmBlockWrites, List.mem_append] at hr
  rcases hr with hr | hr
  · exact .inl hr
  · right
    split_ifs at hr with hd
    · obtain hreg := Option.mem_toList.1 hr
      rw [if_neg (by simp [hd, probeAsm, noValue]), Option.mem_def.1 hreg]
      simp [Ctx.canonicalize, probeAsm, widthOf, Instr.writes]
    · simp at hr

/-- The first block of the probe, instruction by instruction. -/
theorem probe_block (k argc : Nat) : ∃ blk, (probe k argc).blocks[0]? = some blk ∧
    blk.insts.length = 17 ∧ blk.insts[15]? = some (probeAsm k argc) ∧
    blk.insts[16]? = some { op := .jump, a := 1, args := (List.range 14).map (· + 1) } ∧
    ∀ v, 1 ≤ v → v ≤ 14 →
      blk.insts[v]? = some { op := .constInt, type := .i64, result := v } := by
  refine ⟨_, rfl, rfl, rfl, rfl, fun v h1 h2 => ?_⟩
  have : v = 1 ∨ v = 2 ∨ v = 3 ∨ v = 4 ∨ v = 5 ∨ v = 6 ∨ v = 7 ∨ v = 8 ∨ v = 9 ∨ v = 10 ∨ v = 11 ∨
      v = 12 ∨ v = 13 ∨ v = 14 := by omega
  rcases this with rfl | rfl | rfl | rfl | rfl | rfl | rfl | rfl | rfl | rfl | rfl | rfl | rfl | rfl <;>
    rfl

/-- The slot address and the constants are live before the asm block. -/
theorem probe_live (k argc : Nat) {v : Nat} (hv : v ≤ 14) : LiveAt (probe k argc) v 0 15 := by
  obtain ⟨blk, hb, -, h15, h16, -⟩ := probe_block k argc
  rcases Nat.eq_zero_or_pos v with rfl | hpos
  · exact .use hb h15 (by simp [forEachUse, valueOperands, probeAsm])
  · refine .skip hb h15 (show (15 : Nat) ≠ v by omega) (.use hb h16 ?_)
    simp only [forEachUse, valueOperands, List.mem_map, List.mem_range]
    exact ⟨v - 1, by omega, Nat.sub_add_cancel hpos⟩

theorem probe_isValue (k argc : Nat) {v : Nat} (hv : v < 30) : IsValue (probe k argc) v :=
  ⟨show v ≠ (4294967295 : Nat) by omega, hv⟩

theorem probe_usedValues (k argc : Nat) {v : Nat} (hv : v ∈ usedValues (probe k argc)) :
    v ≤ 14 := by
  simp only [usedValues, layout, probe, List.flatMap_cons, List.flatMap_nil, List.cons_append,
    List.append_nil, List.mem_toFinset, List.mem_append, List.flatMap_append, List.flatMap_map,
    List.mem_flatMap, List.mem_range] at hv
  rcases hv with h | (⟨i, -, h⟩ | h | h) | h
  · simp [forEachUse, valueOperands] at h
  · simp [forEachUse, valueOperands] at h
  · simp only [forEachUse, valueOperands, probeAsm] at h
    exact (List.eq_of_mem_replicate h).le.trans (by omega)
  · simp only [forEachUse, valueOperands, List.mem_map, List.mem_range] at h
    obtain ⟨i, hi, rfl⟩ := h
    omega
  · simp [forEachUse, valueOperands] at h

/-- The other values of the probe have no position before the asm block is done. -/
theorem probe_late (k argc : Nat) {v pos : Nat} (hv : 15 ≤ v)
    (h : (v, pos) ∈ extensions (probe k argc)) : 63 ≤ pos := by
  rcases extension_cases h with h | ⟨b, blk, hb, hp, rfl⟩ | ⟨b, blk, i, inst, hb, hi, h⟩
  · have := probe_usedValues k argc h
    omega
  · match b, hb with
    | 0, hb => cases hb; simp at hp
    | 1, _ => exact (by decide : 63 ≤ posE 17)
  · match b, hb with
    | 0, hb =>
      obtain ⟨blk', hb', hlen, h15, h16, hconst⟩ := probe_block k argc
      obtain rfl : blk' = blk := Option.some.inj (hb'.symm.trans hb)
      have hlt := (List.getElem?_eq_some_iff.1 hi).1
      have hfirst : firstIndex (probe k argc) 0 = 0 := rfl
      rw [hfirst, Nat.zero_add] at h
      -- the results before the asm block are the address and the constants
      have hcases : i = 0 ∨ (1 ≤ i ∧ i ≤ 14) ∨ i = 15 ∨ i = 16 := by omega
      rcases hcases with rfl | hi' | rfl | rfl
      · obtain rfl : _ = inst := Option.some.inj ((by cases hb; rfl : blk'.insts[0]? = some
          { op := .slotAddr, type := .ptr, result := 0, a := 0 }).symm.trans hi)
        rcases h with ⟨h, -⟩ | ⟨h, -⟩
        · have h : (0 : Nat) = v := h
          omega
        · simp at h
      · obtain rfl := Option.some.inj ((hconst i hi'.1 hi'.2).symm.trans hi)
        rcases h with ⟨h, -⟩ | ⟨h, -⟩
        · have h : (i : Nat) = v := h
          omega
        · simp at h
      · obtain rfl := Option.some.inj (h15.symm.trans hi)
        rcases h with ⟨-, rfl⟩ | ⟨h, -⟩
        · exact (by decide : 63 ≤ posL 15)
        · simp [probeAsm] at h
      · rcases h with ⟨-, rfl⟩ | ⟨-, -, rfl⟩
        · exact le_trans (by decide) (le_defPos inst 16)
        · exact (by decide : 63 ≤ posL 16)
    | 1, hb =>
      have hfirst : firstIndex (probe k argc) 1 = 17 := rfl
      rw [hfirst] at h
      rcases h with ⟨-, rfl⟩ | ⟨-, -, rfl⟩
      · have := le_defPos inst (17 + i)
        simp only [posU] at this
        omega
      · simp only [posL]
        omega

/-- The order in which a constant tries the registers. -/
theorem probe_order (k argc : Nat) {i : Interval} (hi : i ∈ buildIntervals (probe k argc))
    (h1 : 1 ≤ i.value) (h2 : i.value ≤ 14) :
    registerOrder i = gprPreferScratchy := by
  obtain ⟨v, s, t, hv, -, rfl⟩ := mem_buildIntervals.1 hi
  have hcalls : callIndices (probe k argc) = [] := rfl
  have htype : isFloat ((probe k argc).valueType v) = false := by
    have hvals : ∀ n < 30, isFloat ((probe 0 0).valueType n) = false := by decide
    exact hvals v hv
  simp [registerOrder, mkInterval, hcalls, htype]

/-- The only kill ranges of the probe are those of its block. -/
theorem probe_kills {r : Reg} (hk : blocks[k]? = some block) (hr : ¬AsmReserved block r) :
    kills (probeModule blocks k (argCount block)) (probe k (argCount block)) (.gpr r) = [] := by
  rw [List.eq_nil_iff_forall_not_mem]
  intro range hrange
  rw [mem_kills, buildKills, List.mem_flatMap] at hrange
  obtain ⟨⟨inst, index⟩, hmem, hkill⟩ := hrange
  have hinst : inst ∈ layout (probe k (argCount block)) :=
    List.mem_of_getElem? (List.mem_zipIdx_iff_getElem?.1 hmem)
  simp only [layout, probe, List.flatMap_cons, List.flatMap_nil, List.cons_append, List.append_nil,
    List.mem_cons, List.mem_append, List.mem_map, List.not_mem_nil, or_false] at hinst
  rcases hinst with rfl | (⟨i, -, rfl⟩ | rfl | rfl) | rfl
  · simp [instKills] at hkill
  · simp [instKills] at hkill
  · simp only [instKills, probeAsm, List.mem_flatMap] at hkill
    obtain ⟨family, hfam, hkill⟩ := hkill
    have hblock : (probeModule blocks k (argCount block)).asmBlocks.getD k {} = block := by
      show blocks.getD k {} = block
      rw [List.getD_eq_getElem?_getD, hk, Option.getD_some]
    rw [hblock] at hfam
    cases hreg : familyReg family with
    | none => simp [hreg, kill] at hkill
    | some reg =>
      simp only [hreg, kill] at hkill
      split_ifs at hkill with hframe
      · simp at hkill
      · obtain ⟨rfl, -⟩ := Prod.mk.inj (List.mem_singleton.1 hkill)
        exact hr (.inr (.inr ⟨family, hfam, hreg⟩))
  · simp [instKills] at hkill
  · simp [instKills] at hkill

/-- Fourteen values covered at one position, with nothing else in their way, take
    every register that is not killed: one of them, or a value that started before, has it. -/
theorem exists_reg_of_pressure {module : Module} {fn : Function} {r : PhysReg} {pos : Nat}
    (hmem : r ∈ gprPreferScratchy) (hkills : kills module fn r = [])
    (hcov : ∀ v : Nat, 1 ≤ v → v ≤ 14 → Covers fn v pos)
    (horder : ∀ i ∈ buildIntervals fn, 1 ≤ i.value → i.value ≤ 14 →
      registerOrder i = gprPreferScratchy)
    (hother : ∀ i ∈ buildIntervals fn, 1 ≤ i.value → i.value ≤ 14 →
      ∀ j ∈ buildIntervals fn, j.start ≤ i.start → j.value ≤ 14) :
    ∃ v : Nat, v ≤ 14 ∧ ((allocate module fn .linear).values v).reg = some r := by
  by_contra hnone
  have hfree : ∀ v : Nat, v ≤ 14 → ((allocate module fn .linear).values v).reg ≠ some r :=
    fun v hv h => hnone ⟨v, hv, h⟩
  -- every one of them is in a register, another one
  have hreg : ∀ v : Nat, 1 ≤ v → v ≤ 14 → ∃ reg,
      ((allocate module fn .linear).values v).reg = some reg ∧
        reg ∈ gprPreferScratchy.erase r := by
    intro v h1 h2
    obtain ⟨i, hi, rfl, -, -⟩ := hcov v h1 h2
    have horder := horder i hi h1 h2
    cases hreg : ((allocate module fn .linear).values i.value).reg with
    | none =>
      have hok : overlappingKillOk i r (kills module fn r) false ≠ none := by
        rw [hkills]
        simp [overlappingKillOk]
      obtain ⟨j, hj, hjr, hle, -⟩ := scan_spilled (intervals_sorted fn) (intervals_nodup fn) i hi
        hreg r (by rw [horder]; exact hmem) hok
      exact absurd hjr (hfree j.value (hother i hi h1 h2 j hj hle))
    | some reg =>
      refine ⟨reg, rfl, ?_⟩
      have hassigned := (allocate_spec module fn .linear).assigned i hi
      have hne := hfree i.value h2
      generalize (allocate module fn .linear).values i.value = a at hreg hassigned hne
      cases hassigned with
      | spilled => simp at hreg
      | inReg reg' save hmem' _ _ =>
        obtain rfl : reg' = reg := Option.some.inj hreg
        rw [horder] at hmem'
        exact (List.mem_erase_of_ne (fun h => hne (by rw [← h]))).2 hmem'
  -- fourteen different registers out of thirteen
  choose! reg hsome hin using hreg
  have hnodup : ((List.range' 1 14).map reg).Nodup := by
    rw [List.nodup_map_iff_inj_on (List.nodup_range' ..)]
    intro v hv w hw hvw
    rw [List.mem_range'_1] at hv hw
    by_contra hne
    refine reg_ne_of_covers (hcov v (by omega) (by omega)) (hcov w (by omega) (by omega)) hne
      (hsome v (by omega) (by omega)) ?_
    rw [hvw]
    exact hsome w (by omega) (by omega)
  have hsub : (List.range' 1 14).map reg ⊆ gprPreferScratchy.erase r := by
    intro x hx
    obtain ⟨v, hv, rfl⟩ := List.mem_map.1 hx
    rw [List.mem_range'_1] at hv
    exact hin v (by omega) (by omega)
  have hle := (hnodup.subperm hsub).length_le
  rw [List.length_erase_of_mem hmem, List.length_map, List.length_range'] at hle
  exact absurd hle (by decide)

/-- A register the block writes and does not reserve makes the probe unsound. -/
theorem probe_not_linearSound {r : Reg} (hk : blocks[k]? = some block)
    (hw : r ∈ asmBlockWrites block) (hr : ¬AsmReserved block r) :
    ¬LinearSound (probeModule blocks k (argCount block)) (probe k (argCount block)) := by
  intro hsound
  obtain ⟨blk, hb, hlen, h15, -, hconst⟩ := probe_block k (argCount block)
  have hmem : .gpr r ∈ gprPreferScratchy := by
    have hne : r ≠ .rsp ∧ r ≠ .rbp := ⟨fun h => hr (.inl h), fun h => hr (.inr (.inl h))⟩
    revert hne
    cases r <;> decide
  obtain ⟨v, hv, hreg⟩ := exists_reg_of_pressure hmem (probe_kills hk hr)
    (fun v _ h2 => live_covers (probe_live k (argCount block) h2) hb
      (probe_isValue k (argCount block) (by omega)) (by omega : 15 < blk.insts.length))
    (fun i hi => probe_order k (argCount block) hi)
    (fun i hi h1 h2 j hj hle => by
      -- the others start after the asm block
      obtain ⟨i', hi', hval, hs, -⟩ := def_covers hb (hconst i.value h1 h2)
        (probe_isValue k (argCount block) (show i.value < 30 by omega))
      obtain rfl := interval_unique hi' hi hval
      by_contra hlt
      have := probe_late k (argCount block) (by omega) (start_mem_extensions hj)
      have hs' : i'.start ≤ posU (0 + i'.value) := hs
      simp only [posU] at hs'
      omega)
  have := (hsound.clobbers hb h15 (probe_isValue k (argCount block) (by omega))
    (.inl (probe_live k (argCount block) hv)) hreg (mem_probe_clobbers hk hw)).1
  exact absurd this (by simp [probeAsm, isCallLike])

/-- A block that writes `r8` under its 16-bit name. -/
def narrowAsm : AsmBlock :=
  { instructions := [{ mnemonic := "mov", operands :=
      [{ kind := .register, reg := "r8w", widthBits := 16 }, { kind := .immediate, imm := 7 }] }] }

/-- Five constants, the block between them and their uses. -/
def narrowAsmFn : Function :=
  { name := "f", hasBody := true, values := List.replicate 9 { block := 0, type := .i64 }
    blocks := [{ insts :=
      (List.range 5).map (fun i => { op := .constInt, type := .i64, result := i }) ++
      [{ op := .asm, a := 0 },
        { op := .add, type := .i64, result := 5, a := 0, b := 1 },
        { op := .add, type := .i64, result := 6, a := 2, b := 3 },
        { op := .add, type := .i64, result := 7, a := 5, b := 6 },
        { op := .add, type := .i64, result := 8, a := 7, b := 4 },
        { op := .ret, args := [8] }] }] }

def narrowAsmModule : Module :=
  { functions := [narrowAsmFn], signatures := [{ result := .i64 }], asmBlocks := [narrowAsm] }

end Mirage.X86
