import Mirage.Mir.Survivors

/-!
# The sweep over the instructions

Each instruction that the sweep comes by stays, becomes a constant (`Ssa.edit_const`), or makes
its result an alias (`Ssa.edit_alias`); what holds behind it is `SweepInv`.
-/

namespace Mirage

open Dominators Peep

/-! ## One instruction -/

/-- The function is read through aliases, and the instruction is one of it. -/
structure Function.Reads (module : Module) (sig : Signature) (fn : Function) (m : Remap)
    (consts : Consts) (inst : Inst) : Prop where
  ssa : (fn.through m).Ssa module sig
  consts : ConstsOf fn.blocks consts
  mem : ∃ block ∈ fn.blocks, inst ∈ block.insts

namespace Function.Reads

variable {module : Module} {sig : Signature} {fn : Function} {pb : Nat} {m : Remap}
  {consts : Consts} {inst : Inst} (h : fn.Reads module sig m consts inst)

include h

theorem exists_block : ∃ block ∈ (fn.through m).blocks,
    mapValueOperands (resolveOperand m) inst ∈ block.insts := by
  obtain ⟨block, hblock, hinst⟩ := h.mem
  exact ⟨_, List.mem_map_of_mem hblock, List.mem_map_of_mem hinst⟩

theorem typed : (mapValueOperands (resolveOperand m) inst).WellTyped module (fn.through m) sig := by
  obtain ⟨block, hblock, hinst⟩ := h.exists_block
  exact h.ssa.typed block hblock _ hinst

/-- An instruction on constants becomes one. -/
theorem edit_fold {t : Ty} {v : BitVec 64} {b : BlockId} {block : Block} {pre post : List Inst}
    (hb : (fn.through m).blocks[b]? = some block)
    (hsplit : block.insts = pre ++ mapValueOperands (resolveOperand m) inst :: post)
    (hfold : foldInst pb inst (fn.valueType (resolve m inst.a)) (intOf consts m inst.a)
      (intOf consts m inst.b) = some (t, v)) :
    inst.op ≠ .constInt ∧ (fn.through m).Edit pb id (fun _ => true)
      { fn.through m with
        blocks := ((fn.through m).blocks.set b
          { block with insts := pre ++ makeConstInt inst t v :: post }) } := by
  have hop := arith_of_foldInst hfold
  obtain ⟨-, hconst, hdefines⟩ := Inst.arith_ne hop
  obtain ⟨ha, -⟩ := mapValueOperands_fields (resolveOperand_noValue m) (.inl hop)
  obtain ⟨hane, hint, -⟩ := h.typed.arith (by rw [mapValueOperands_op]; exact hop)
  have hne : inst.a ≠ noValue := by
    intro heq
    rw [ha, heq] at hane
    exact hane (resolveOperand_noValue m)
  -- the fold takes the type of what the operand is an alias of
  have hsrc : (fn.through m).valueType (mapValueOperands (resolveOperand m) inst).a =
      fn.valueType (resolve m inst.a) := by
    rw [ha, resolveOperand_of_ne m hne]
    rfl
  rw [← foldInst_map (resolveOperand m), ← hsrc] at hfold
  obtain ⟨htype, hvalue⟩ := value?_of_fold h.typed hfold
  refine ⟨hconst, h.ssa.edit_const hb hsplit ?_ rfl htype ?_ hint fun ρ hseen => ?_⟩
  · rw [mapValueOperands_op]
    exact hdefines
  · rw [mapValueOperands_result]
    rfl
  · obtain ⟨hfront, hholds⟩ := hseen.front h.ssa
    refine hvalue ρ (knows_through h.ssa h.consts (.inl hop) hholds fun u hu => ?_)
    exact h.ssa.uses _ _ hfront.reach hb _ _ _ hsplit u hu

section

variable {survivor : ValueId}
  (hsurvivor : survivorOf inst (intOf consts m inst.a) (intOf consts m inst.b) = some survivor)

include hsurvivor

/-- What survives is a copy of the result. -/
theorem isCopy : (fn.through m).IsCopy pb (mapValueOperands (resolveOperand m) inst)
    (intOf consts m inst.a) (intOf consts m inst.b) (resolve m survivor) := by
  have hcopy : (fn.through m).IsCopy pb (mapValueOperands (resolveOperand m) inst)
      (intOf consts m inst.a) (intOf consts m inst.b) (resolveOperand m survivor) :=
    isCopy_of_survivor h.typed (survivorOf_map (resolveOperand_noValue m) hsurvivor)
  have hne : survivor ≠ noValue := by
    rintro rfl
    exact hcopy.has.ne (resolveOperand_noValue m)
  rwa [resolveOperand_of_ne m hne] at hcopy

/-- Its result becomes an alias of it. -/
theorem edit_alias : inst.result ≠ noValue ∧
    (fn.through m).Edit pb (Function.update id inst.result (resolve m survivor)) (fun _ => true)
      ((fn.through m).renamed (Function.update id inst.result (resolve m survivor))
        fun _ => true) := by
  obtain ⟨hdefines, hop⟩ := op_of_survivor hsurvivor
  have hcopy : (fn.through m).IsCopy pb _ _ _ _ := h.isCopy hsurvivor
  obtain ⟨block, hblock, hinst⟩ := h.exists_block
  have hresults := h.ssa.results block hblock _ hinst
  have hrecorded := h.ssa.recorded block hblock _ hinst
  have hhas := beq_iff_eq.1 hcopy.has.2
  rw [mapValueOperands_result, mapValueOperands_op] at hresults
  rw [mapValueOperands_result] at hrecorded
  have hr := hresults.2 ⟨hdefines, hcopy.type⟩
  refine ⟨hr, h.ssa.edit_alias ⟨mapValueOperands_result _ _, hr, block, hblock, hinst⟩ hcopy.mem
    ⟨fun _ => hcopy.has.1, by rw [hhas, hrecorded hr]⟩ fun b front ρ hholds havail => ?_⟩
  exact hcopy.value ρ (knows_through h.ssa h.consts hop hholds havail)

end

end Function.Reads

/-! ## The sweep -/

/-- What holds in a sweep over the instructions, before those with the results `rest`. -/
structure SweepInv (module : Module) (sig : Signature) (pb : Nat) (orig fn : Function)
    (blocks : List Block) (rest : List ValueId) (s : Sweep) : Prop where
  preserved : Function.Preserved module sig pb orig (Function.through s.remap { fn with blocks })
  chain : Chain s.remap
  nodup : (rest.filter (· ≠ noValue)).Nodup
  fresh : ∀ v ∈ rest, v ≠ noValue → s.remap.lookup v = none
  consts : ConstsOf blocks s.consts
  changed : s.changed = false → s.remap = []

section

variable {module : Module} {sig : Signature} {orig fn : Function} {pb : Nat}
  {done todo : List Block} {block : Block}

theorem SweepInv.skip {blocks : List Block} {r : ValueId} {rest : List ValueId} {s : Sweep}
    (h : SweepInv module sig pb orig fn blocks (r :: rest) s) :
    SweepInv module sig pb orig fn blocks rest s where
  preserved := h.preserved
  chain := h.chain
  nodup := (h.nodup.sublist ((List.sublist_cons_self r rest).filter _))
  fresh := fun v hv => h.fresh v (List.mem_cons_of_mem _ hv)
  consts := h.consts
  changed := h.changed

theorem SweepInv.not_mem {blocks : List Block} {r : ValueId} {rest : List ValueId} {s : Sweep}
    (h : SweepInv module sig pb orig fn blocks (r :: rest) s) (hr : r ≠ noValue) : r ∉ rest := by
  have hnodup := h.nodup
  rw [List.filter_cons_of_pos (by simpa using hr)] at hnodup
  exact fun hmem => (List.nodup_cons.1 hnodup).1 (List.mem_filter.2 ⟨hmem, by simpa using hr⟩)

/-- The block behind those that are done, read through aliases. -/
theorem getElem?_through (m : Remap) (fn : Function) (done todo : List Block) (block : Block)
    (insts : List Inst) :
    (Function.through m
      { fn with blocks := done ++ { block with insts } :: todo }).blocks[done.length]? =
        some { block with insts := insts.map (mapValueOperands (resolveOperand m)) } := by
  rw [Function.through, List.getElem?_map, List.getElem?_append_right le_rfl, Nat.sub_self,
    List.getElem?_cons_zero, Option.map_some]

theorem through_set {m : Remap} (insts insts' : List Inst) :
    Function.through m { fn with blocks := done ++ { block with insts := insts' } :: todo } =
      { Function.through m { fn with blocks := done ++ { block with insts } :: todo } with
        blocks := (Function.through m
          { fn with blocks := done ++ { block with insts } :: todo }).blocks.set done.length
            { block with insts := insts'.map (mapValueOperands (resolveOperand m)) } } := by
  simp only [Function.through, List.map_append, List.map_cons]
  rw [List.set_append_right _ _ (List.length_map _).le, List.length_map, Nat.sub_self,
    List.set_cons_zero]

theorem ConstsOf.fold {consts : Consts} {pre post : List Inst} {inst : Inst}
    (h : ConstsOf (done ++ { block with insts := pre ++ inst :: post } :: todo) consts)
    (hop : inst.op ≠ .constInt) (type : Ty) (value : BitVec 64) :
    ConstsOf (done ++ { block with insts := pre ++ makeConstInt inst type value :: post } :: todo)
      ((inst.result, { isInt := true, value, type }) :: consts) := by
  intro v c hc hint
  by_cases hv : v = inst.result
  · subst hv
    rw [List.lookup_cons_self] at hc
    obtain rfl := Option.some.inj hc
    refine ⟨makeConstInt inst type value, ?_, rfl, rfl, rfl⟩
    simp
  · -- the instruction that goes is no constant, so that the others all stay
    rw [lookup_cons_ne hv] at hc
    obtain ⟨inst', hmem, hresult, hconst, himm⟩ := h v c hc hint
    refine ⟨inst', ?_, hresult, hconst, himm⟩
    have hne : inst' ≠ inst := by
      rintro rfl
      exact hop hconst
    simp only [List.flatMap_append, List.flatMap_cons, List.mem_append, List.mem_cons] at hmem ⊢
    tauto

theorem SweepInv.reads {pre post : List Inst} {inst : Inst} {rest : List ValueId} {s : Sweep}
    (h : SweepInv module sig pb orig fn
      (done ++ { block with insts := pre ++ inst :: post } :: todo) rest s) :
    Function.Reads module sig
      { fn with blocks := done ++ { block with insts := pre ++ inst :: post } :: todo } s.remap
        s.consts inst :=
  ⟨h.preserved.ssa, h.consts, _, List.mem_append_right _ List.mem_cons_self,
    List.mem_append_right _ List.mem_cons_self⟩

/-- One instruction. -/
theorem simplifyInst_inv {pre post : List Inst} {inst inst' : Inst} {rest : List ValueId}
    {s s' : Sweep}
    (h : SweepInv module sig pb orig fn
      (done ++ { block with insts := pre ++ inst :: post } :: todo) (inst.result :: rest) s)
    (hstep : simplifyInst pb fn inst s = some (inst', s')) :
    SweepInv module sig pb orig fn
      (done ++ { block with insts := pre ++ inst' :: post } :: todo) rest s' := by
  rw [simplifyInst] at hstep
  dsimp only at hstep
  split at hstep
  · -- the instruction becomes a constant
    rename_i t v hfold
    obtain ⟨rfl, rfl⟩ := Prod.mk.inj (Option.some.inj hstep)
    have hat := getElem?_through s.remap fn done todo block (pre ++ inst :: post)
    rw [List.map_append, List.map_cons] at hat
    obtain ⟨hconst, hedit⟩ := h.reads.edit_fold hat rfl hfold
    refine ⟨?_, h.chain, h.skip.nodup, h.skip.fresh, h.consts.fold hconst _ _,
      fun hchanged => by cases hchanged⟩
    dsimp only
    rw [through_set (pre ++ inst :: post), List.map_append, List.map_cons]
    exact h.preserved.edit hedit
  · split at hstep
    · -- its result becomes an alias
      rename_i survivor hsurvivor
      split_ifs at hstep with hcircle
      obtain ⟨rfl, rfl⟩ := Prod.mk.inj (Option.some.inj hstep)
      obtain ⟨hr, hedit⟩ := h.reads.edit_alias hsurvivor
      have hlookup := h.fresh _ List.mem_cons_self hr
      have hend := h.chain.lookup_resolve survivor
      refine ⟨?_, h.chain.cons hlookup hend hcircle, h.skip.nodup, fun v hv hvne => ?_, h.consts,
        fun hchanged => by cases hchanged⟩
      · dsimp only
        rw [Function.through_cons h.chain hlookup hend hcircle hr h.preserved.ssa]
        exact h.preserved.edit hedit
      · have hvr : v ≠ inst.result := by
          rintro rfl
          exact h.not_mem hr hv
        dsimp only
        rw [lookup_cons_ne hvr]
        exact h.skip.fresh v hv hvne
    · obtain ⟨rfl, rfl⟩ := Prod.mk.inj (Option.some.inj hstep)
      exact h.skip

end

/-! ## The blocks -/

section

variable {module : Module} {sig : Signature} {orig fn : Function} {pb : Nat}
  {done todo : List Block} {block : Block}

/-- The instructions of a block. -/
theorem simplifyInsts_inv (block : Block) {insts insts' : List Inst} (pre : List Inst)
    {rest : List ValueId} {s s' : Sweep}
    (h : SweepInv module sig pb orig fn
      (done ++ { block with insts := pre ++ insts } :: todo) (insts.map Inst.result ++ rest) s)
    (hstep : simplifyInsts pb fn insts s = some (insts', s')) :
    SweepInv module sig pb orig fn
      (done ++ { block with insts := pre ++ insts' } :: todo) rest s' := by
  induction insts generalizing insts' pre s with
  | nil =>
    obtain ⟨rfl, rfl⟩ := Prod.mk.inj (Option.some.inj hstep)
    exact h
  | cons inst insts ih =>
    rw [simplifyInsts] at hstep
    obtain ⟨⟨first, s₁⟩, hfirst, hstep⟩ := Option.bind_eq_some_iff.1 hstep
    obtain ⟨⟨others, s₂⟩, hothers, hstep⟩ := Option.bind_eq_some_iff.1 hstep
    obtain ⟨rfl, rfl⟩ := Prod.mk.inj (Option.some.inj hstep)
    rw [List.map_cons, List.cons_append] at h
    have hnext := simplifyInst_inv h hfirst
    rw [List.append_cons pre] at hnext ⊢
    exact ih _ hnext hothers

/-- The blocks. -/
theorem simplifyBlocks_inv {blocks blocks' : List Block} {s s' : Sweep}
    (h : SweepInv module sig pb orig fn (done ++ blocks)
      ((blocks.flatMap Block.insts).map Inst.result) s)
    (hstep : simplifyBlocks pb fn blocks s = some (blocks', s')) :
    SweepInv module sig pb orig fn (done ++ blocks') [] s' := by
  induction blocks generalizing blocks' done s with
  | nil =>
    obtain ⟨rfl, rfl⟩ := Prod.mk.inj (Option.some.inj hstep)
    exact h
  | cons block blocks ih =>
    rw [simplifyBlocks] at hstep
    obtain ⟨⟨insts, s₁⟩, hinsts, hstep⟩ := Option.bind_eq_some_iff.1 hstep
    obtain ⟨⟨others, s₂⟩, hothers, hstep⟩ := Option.bind_eq_some_iff.1 hstep
    obtain ⟨rfl, rfl⟩ := Prod.mk.inj (Option.some.inj hstep)
    rw [List.flatMap_cons, List.map_append] at h
    have hnext := simplifyInsts_inv block [] h hinsts
    rw [List.nil_append, List.append_cons] at hnext
    rw [List.append_cons]
    exact ih hnext hothers

theorem scanConst_of {blocks : List Block} {consts : Consts} (h : ConstsOf blocks consts)
    {inst : Inst} (hinst : inst ∈ blocks.flatMap Block.insts) :
    ConstsOf blocks (scanConst consts inst) := by
  rw [scanConst]
  split
  · rename_i hop
    intro v c hc hint
    by_cases hv : v = inst.result
    · subst hv
      rw [List.lookup_cons_self] at hc
      obtain rfl := Option.some.inj hc
      exact ⟨inst, hinst, rfl, hop, rfl⟩
    · rw [lookup_cons_ne hv] at hc
      exact h v c hc hint
  · intro v c hc hint
    by_cases hv : v = inst.result
    · subst hv
      rw [List.lookup_cons_self] at hc
      obtain rfl := Option.some.inj hc
      cases hint
    · rw [lookup_cons_ne hv] at hc
      exact h v c hc hint
  · exact h

theorem constsOf_rescan (blocks : List Block) : ConstsOf blocks (rescanConsts blocks) := by
  have hfold (insts : List Inst) (hsub : insts ⊆ blocks.flatMap Block.insts) {consts : Consts}
      (h : ConstsOf blocks consts) : ConstsOf blocks (insts.foldl scanConst consts) := by
    induction insts generalizing consts with
    | nil => exact h
    | cons inst insts ih =>
      obtain ⟨hinst, hinsts⟩ := List.cons_subset.1 hsub
      exact ih hinsts (scanConst_of h hinst)
  refine hfold _ (List.Subset.refl _) fun v c hc => ?_
  cases hc

/-- The results of the instructions differ. -/
theorem Function.Ssa.results_nodup (h : fn.Ssa module sig) :
    (((fn.blocks.flatMap Block.insts).map Inst.result).filter (· ≠ noValue)).Nodup := by
  refine List.Nodup.sublist ?_ h.once
  induction fn.blocks with
  | nil => exact List.Sublist.slnil
  | cons block blocks ih =>
    rw [List.flatMap_cons, List.map_append, List.filter_append, List.flatMap_cons]
    exact (List.sublist_append_right _ _).append ih

/-- Before the first instruction. -/
theorem Function.Preserved.sweep (h : Function.Preserved module sig pb orig fn)
    (stats : PeepholeStats) : SweepInv module sig pb orig fn ([] ++ fn.blocks)
      ((fn.blocks.flatMap Block.insts).map Inst.result)
      { consts := rescanConsts fn.blocks, stats } where
  preserved := by
    rw [List.nil_append, Function.through_nil]
    exact h
  chain := .nil
  nodup := h.ssa.results_nodup
  fresh := fun _ _ _ => rfl
  consts := constsOf_rescan fn.blocks
  changed := fun _ => rfl

/-- Folding and simplification. -/
theorem foldAndSimplify_preserved (h : Function.Preserved module sig pb orig fn)
    {fn' : Function} {stats stats' : PeepholeStats} {changed : Bool}
    (hstep : foldAndSimplify pb fn stats = some (fn', stats', changed)) :
    Function.Preserved module sig pb orig fn' := by
  rw [foldAndSimplify] at hstep
  obtain ⟨⟨blocks, s⟩, hblocks, hstep⟩ := Option.bind_eq_some_iff.1 hstep
  obtain ⟨rfl, -⟩ := Prod.mk.inj (Option.some.inj hstep)
  have hend := simplifyBlocks_inv (h.sweep stats) hblocks
  rw [List.nil_append] at hend
  have hpreserved := hend.preserved
  rw [through_applyRemap] at hpreserved
  cases hchanged : s.changed with
  | true => rwa [if_pos rfl]
  | false =>
    rw [hend.changed hchanged] at hpreserved
    exact hpreserved

end

end Mirage
