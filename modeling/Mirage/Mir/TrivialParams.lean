import Mirage.Mir.Aliases

/-!
# The sweep over the parameters

Erasing a parameter with its column of arguments is an edit of the function as it is read
(`through_eraseParam`): of a parameter that nothing reads, or that every jump passes the same
value (`uniqueArg_spec`), which becomes its alias. What holds in the sweep is `ParamInv`.
-/

namespace Mirage

open Dominators Peep

section

theorem eraseIdx_eq_filter {params : List ValueId} (hnodup : params.Nodup) {k : Nat} {p : ValueId}
    (hk : params[k]? = some p) : params.eraseIdx k = params.filter (· ≠ p) := by
  obtain ⟨hlt, rfl⟩ := List.getElem?_eq_some_iff.1 hk
  rw [← hnodup.erase_getElem k hlt, hnodup.erase_eq_filter]
  refine List.filter_congr fun q _ => ?_
  rw [bne, beq_eq_decide, decide_not]

/-- Without a parameter, the column of its arguments goes. -/
theorem keptArgs_eraseIdx {params args : List ValueId} (hnodup : params.Nodup) {k : Nat}
    {p : ValueId} (hk : params[k]? = some p) (hlength : params.length = args.length) :
    keptArgs (· ≠ p) params args = args.eraseIdx k := by
  induction params generalizing args k with
  | nil => cases hk
  | cons q params ih =>
    obtain ⟨a, args, rfl⟩ := List.exists_cons_of_length_eq_add_one hlength.symm
    obtain ⟨hq, hnodup⟩ := List.nodup_cons.1 hnodup
    have hlength := Nat.succ.inj hlength
    cases k with
    | zero =>
      obtain rfl := Option.some.inj hk
      rw [List.eraseIdx_cons_zero, keptArgs, List.zip_cons_cons,
        List.filter_cons_of_neg (by simp)]
      have hkeep : ∀ q' ∈ params, (fun v : ValueId => decide (v ≠ q)) q' = true := by
        refine fun q' hq' => decide_eq_true ?_
        rintro rfl
        exact hq hq'
      exact keptArgs_of_all hlength hkeep
    | succ k =>
      have hne : q ≠ p := by
        rintro rfl
        exact hq (List.mem_of_getElem? hk)
      rw [List.eraseIdx_cons_succ, ← ih hnodup hk hlength, keptArgs, keptArgs, List.zip_cons_cons,
        List.filter_cons_of_pos (by simpa using hne), List.map_cons]

theorem mem_jumpPreds {blocks : List Block} {b c : BlockId} :
    c ∈ jumpPreds blocks b ↔ b < blocks.length ∧ ∃ block, blocks[c]? = some block ∧
      ∃ term, block.terminator? = some term ∧ term.op = .jump ∧ term.a = b := by
  rw [jumpPreds, List.mem_filter, List.mem_range, List.getD_eq_getElem?_getD]
  rcases hc : blocks[c]? with _ | block
  · rw [List.getElem?_eq_none_iff] at hc
    simp [hc.not_gt]
  · have hlt := (List.getElem?_eq_some_iff.1 hc).1
    rw [Option.getD_some]
    cases hterm : block.terminator? with
    | none => simp [hterm]
    | some term =>
      simp only [hlt, true_and, Bool.and_eq_true, beq_iff_eq, decide_eq_true_eq, Option.some.injEq,
        exists_eq_left', hterm]
      constructor
      · rintro ⟨⟨hop, hlt⟩, rfl⟩
        exact ⟨hlt, hop, rfl⟩
      · rintro ⟨hlt, hop, rfl⟩
        exact ⟨⟨hop, hlt⟩, rfl⟩

theorem jumpPreds_nodup (blocks : List Block) (b : BlockId) : (jumpPreds blocks b).Nodup :=
  List.nodup_range.filter _

theorem getElem?_foldl_modify {f : Block → Block} {preds : List BlockId} (hnodup : preds.Nodup)
    (blocks : List Block) (c : BlockId) :
    (preds.foldl (fun blocks pred => blocks.modify pred f) blocks)[c]? =
      blocks[c]?.map fun block => if c ∈ preds then f block else block := by
  induction preds generalizing blocks with
  | nil => simp
  | cons pred preds ih =>
    obtain ⟨hpred, hnodup⟩ := List.nodup_cons.1 hnodup
    rw [List.foldl_cons, ih hnodup, List.getElem?_modify]
    rcases hc : blocks[c]? with _ | block
    · simp
    · by_cases hpc : pred = c
      · subst hpc
        simp [hpred]
      · simp [hpc, Ne.symm hpc]

theorem getElem?_eraseParam {preds : List BlockId} (hnodup : preds.Nodup) (b : BlockId) (k : Nat)
    (blocks : List Block) (c : BlockId) : (eraseParam preds b k blocks)[c]? =
      blocks[c]?.map fun block =>
        let block := if b = c then { block with params := block.params.eraseIdx k } else block
        if c ∈ preds then eraseArg k block else block := by
  rw [eraseParam, getElem?_foldl_modify hnodup, List.getElem?_modify, Option.map_eq_map,
    Option.map_map]
  rfl

theorem eraseArg_eq {block : Block} {init : List Inst} {last : Inst}
    (h : block.insts = init ++ [last]) (k : Nat) :
    eraseArg k block =
      { block with insts := init ++ [{ last with args := last.args.eraseIdx k }] } := by
  rw [eraseArg, h, List.getLast?_append, List.getLast?_singleton, Option.some_or,
    List.dropLast_concat]

variable {module : Module} {sig : Signature} {fn : Function} {σ : ValueId → ValueId}
  {m m' : Remap} {b : BlockId} {k : Nat} {p : ValueId}

theorem params_through (m : Remap) (fn : Function) (b : BlockId) :
    ((fn.through m).blocks.getD b {}).params = (fn.blocks.getD b {}).params := by
  rw [Function.through, List.getD_eq_getElem?_getD, List.getD_eq_getElem?_getD, List.getElem?_map]
  cases fn.blocks[b]? <;> rfl

theorem mem_params_through (m : Remap) (fn : Function)
    (hk : (fn.blocks.getD b {}).params[k]? = some p) :
    p ∈ ((fn.through m).blocks.getD b {}).params := by
  rw [params_through]
  exact List.mem_of_getElem? hk

theorem lt_length_of_param (hk : (fn.blocks.getD b {}).params[k]? = some p) :
    b < fn.blocks.length := by
  by_contra hlt
  rw [List.getD_eq_getElem?_getD, List.getElem?_eq_none (not_lt.1 hlt)] at hk
  cases hk

/-- The last instruction of a block, as the source has it. -/
theorem exists_last (h : (fn.through m).Ssa module sig) {c : BlockId} {block : Block}
    (hc : fn.blocks[c]? = some block) : ∃ init last, block.insts = init ++ [last] ∧
      isTerminator last.op = true ∧ (∀ inst ∈ init, isTerminator inst.op = false) ∧
        (mapValueOperands (resolveOperand m) last).WellTyped module (fn.through m) sig := by
  have hat : (fn.through m).blocks[c]? = some { block with
      insts := block.insts.map (mapValueOperands (resolveOperand m)) } := by
    rw [Function.through, List.getElem?_map, hc, Option.map_some]
  obtain ⟨init', last', hsplit, hlast, hinit⟩ := h.closed_at hat
  obtain ⟨init, rest, hinsts, rfl, hrest⟩ := List.map_eq_append_iff.1 hsplit
  obtain ⟨last, rfl, rfl⟩ := List.map_eq_singleton_iff.1 hrest
  refine ⟨init, last, hinsts, ?_, fun inst hinst => ?_, ?_⟩
  · rwa [mapValueOperands_op] at hlast
  · rw [← mapValueOperands_op (resolveOperand m) inst]
    exact hinit _ (List.mem_map_of_mem hinst)
  · refine h.typed _ (List.mem_of_getElem? hat) _ ?_
    dsimp only
    rw [hinsts]
    exact List.mem_map_of_mem (List.mem_append_right _ List.mem_cons_self)

section

variable (h : (fn.through m).Ssa module sig) (hk : (fn.blocks.getD b {}).params[k]? = some p)
  {c : BlockId} {block : Block} (hc : fn.blocks[c]? = some block)

include h hk hc

/-- Only its own block loses the parameter. -/
theorem erased_params :
    (if b = c then { block with params := block.params.eraseIdx k } else block) =
      { block with params := block.params.filter (· ≠ p) } := by
  split
  · rename_i hbc
    subst hbc
    have hnodup := h.params_nodup b
    rw [params_through] at hnodup
    rw [Function.getD_blocks hc] at hk hnodup
    rw [eraseIdx_eq_filter hnodup hk]
  · rename_i hbc
    have hall : block.params.filter (· ≠ p) = block.params := by
      refine List.filter_eq_self.2 fun q hq => decide_eq_true ?_
      rintro rfl
      have hp := mem_params_through m fn hk
      refine hbc (h.once_defs q b c (Function.defs_param hp) (Function.defs_param ?_))
      rw [params_through, Function.getD_blocks hc]
      exact hq
    rw [hall]

/-- Only the jumps to it lose the argument. -/
theorem erased_term (hσ : σ noValue = noValue) (hm : resolveOperand m' = σ ∘ resolveOperand m)
    {last : Inst} (hlast : block.terminator? = some last)
    (htyped : (mapValueOperands (resolveOperand m) last).WellTyped module (fn.through m) sig) :
    mapValueOperands (resolveOperand m') (if c ∈ jumpPreds fn.blocks b then
      { last with args := last.args.eraseIdx k } else last) =
        (fn.through m).editTerm σ (· ≠ p) (mapValueOperands (resolveOperand m) last) := by
  split
  · -- the argument stands where the parameter does
    rename_i hpred
    obtain ⟨-, block', hblock', term, hterm, hop, rfl⟩ := mem_jumpPreds.1 hpred
    obtain rfl := Option.some.inj (hc.symm.trans hblock')
    obtain rfl := Option.some.inj (hlast.symm.trans hterm)
    have hmap : mapValueOperands (resolveOperand m) last =
        { last with args := last.args.map (resolveOperand m) } := by
      simp only [mapValueOperands, hop]
    rw [hmap] at htyped ⊢
    simp only [Inst.WellTyped, hop] at htyped
    obtain ⟨target, htarget, htypes⟩ := htyped
    have hlength := htypes.length_eq.symm
    rw [← Function.getD_blocks htarget] at hlength
    rw [Function.editTerm, if_pos hop]
    dsimp only
    rw [keptArgs_eraseIdx (h.params_nodup _) (by rw [params_through]; exact hk) hlength]
    simp only [mapValueOperands, hop]
    rw [hm, List.eraseIdx_map, List.map_map]
  · -- a jump to another block: the parameter is none of it
    rename_i hpred
    rw [editTerm_all htyped, hm, mapValueOperands_comp hσ]
    intro hop q hq
    refine decide_eq_true ?_
    rintro rfl
    have hp := mem_params_through m fn hk
    have hb := h.once_defs q b _ (Function.defs_param hp) (Function.defs_param hq)
    rw [mapValueOperands_op] at hop
    simp only [mapValueOperands, hop] at hb
    exact hpred (mem_jumpPreds.2
      ⟨lt_length_of_param hk, block, hc, last, hlast, hop, hb.symm⟩)

end

/-- Without a parameter, the function as it is read is edited. -/
theorem through_eraseParam (h : (fn.through m).Ssa module sig)
    (hk : (fn.blocks.getD b {}).params[k]? = some p) (hσ : σ noValue = noValue)
    (hm : resolveOperand m' = σ ∘ resolveOperand m) :
    Function.through m'
      { fn with blocks := eraseParam (jumpPreds fn.blocks b) b k fn.blocks } =
        (fn.through m).renamed σ (· ≠ p) := by
  rw [Function.through, Function.renamed]
  refine congrArg (fun blocks => { fn with blocks }) (List.ext_getElem? fun c => ?_)
  rw [List.getElem?_map, List.getElem?_map, getElem?_eraseParam (jumpPreds_nodup _ _),
    Option.map_map, Function.through, List.getElem?_map, Option.map_map]
  rcases hc : fn.blocks[c]? with _ | block
  · rfl
  obtain ⟨init, last, hinsts, hlast, hinit, htyped⟩ := exists_last h hc
  have hterminator : block.terminator? = some last := by
    rw [Block.terminator?, hinsts, List.getLast?_append, List.getLast?_singleton, Option.some_or]
  have herased {B : Block} (hB : B.insts = init ++ [last]) :
      (if c ∈ jumpPreds fn.blocks b then eraseArg k B else B) = { B with
        insts := init ++ [if c ∈ jumpPreds fn.blocks b then
          { last with args := last.args.eraseIdx k } else last] } := by
    split
    · exact eraseArg_eq hB k
    · rw [← hB]
  have hrest : init.map (mapValueOperands (resolveOperand m')) =
      init.map ((fun inst => if isTerminator inst.op = true then
        (fn.through m).editTerm σ (· ≠ p) inst else mapValueOperands σ inst) ∘
          mapValueOperands (resolveOperand m)) := by
    refine List.map_congr_left fun inst hinst => ?_
    rw [Function.comp_apply, mapValueOperands_op, if_neg (Bool.eq_false_iff.1 (hinit inst hinst)),
      hm, mapValueOperands_comp hσ]
  rw [Option.map_some, Option.map_some, Function.comp_apply, Function.comp_apply]
  dsimp only
  rw [erased_params h hk hc,
    herased (B := { block with params := block.params.filter (· ≠ p) }) hinsts]
  dsimp only
  rw [List.map_append, List.map_singleton, erased_term h hk hc hσ hm hterminator htyped, hinsts,
    List.map_append, List.map_append, List.map_singleton, List.map_singleton, mapValueOperands_op,
    if_pos hlast, List.map_map, hrest]
  rfl

end

/-! ## What the jumps pass -/

section

/-- What the arguments agree on, but for those that are no values. -/
theorem uniqueArg_spec {m : Remap} {blocks : List Block} {p : ValueId} {k : Nat}
    {preds : List BlockId} {u₀ u : ValueId} (h : uniqueArg m blocks p k preds u₀ = some u) :
    (u₀ ≠ noValue → u = u₀) ∧
      (∀ pred ∈ preds, ∃ arg, (jumpArgs blocks pred)[k]? = some arg ∧
        (resolve m arg = noValue ∨ resolve m arg = p ∨ resolve m arg = u)) ∧
      (u = u₀ ∨ ∃ pred ∈ preds, ∃ arg, (jumpArgs blocks pred)[k]? = some arg ∧
        resolve m arg = u ∧ u ≠ p) := by
  induction preds generalizing u₀ with
  | nil =>
    obtain rfl := Option.some.inj h
    exact ⟨fun _ => rfl, fun _ hpred => (List.not_mem_nil hpred).elim, .inl rfl⟩
  | cons pred preds ih =>
    rw [uniqueArg] at h
    split at h
    · cases h
    rename_i arg harg
    dsimp only at h
    have hlater {u₁ : ValueId} (h : u = u₁ ∨ ∃ pred ∈ preds, ∃ arg,
        (jumpArgs blocks pred)[k]? = some arg ∧ resolve m arg = u ∧ u ≠ p) :
        u = u₁ ∨ ∃ pred' ∈ pred :: preds, ∃ arg,
          (jumpArgs blocks pred')[k]? = some arg ∧ resolve m arg = u ∧ u ≠ p :=
      h.imp_right fun ⟨pred', hpred', hrest⟩ => ⟨pred', List.mem_cons_of_mem _ hpred', hrest⟩
    split_ifs at h with hp hnone hne
    · -- the parameter itself
      obtain ⟨hkeep, hall, hfrom⟩ := ih h
      exact ⟨hkeep, List.forall_mem_cons.2 ⟨⟨arg, harg, .inr (.inl hp)⟩, hall⟩, hlater hfrom⟩
    · -- the first value; what is no value counts as none yet
      obtain ⟨hkeep, hall, hfrom⟩ := ih h
      refine ⟨fun hne => absurd hnone hne, List.forall_mem_cons.2 ⟨⟨arg, harg, ?_⟩, hall⟩, ?_⟩
      · by_cases harg' : resolve m arg = noValue
        · exact .inl harg'
        · exact .inr (.inr (hkeep harg').symm)
      · rcases hfrom with rfl | hfrom
        · exact .inr ⟨pred, List.mem_cons_self, arg, harg, rfl, hp⟩
        · exact hlater (.inr hfrom)
    · -- the same value again
      obtain ⟨hkeep, hall, hfrom⟩ := ih h
      refine ⟨hkeep, List.forall_mem_cons.2 ⟨⟨arg, harg, .inr (.inr ?_)⟩, hall⟩, hlater hfrom⟩
      rw [← not_not.1 hne, hkeep hnone]

theorem forall₂_getElem? {α β : Type} {R : α → β → Prop} {l : List α} {l' : List β}
    (h : List.Forall₂ R l l') {k : Nat} {x : α} {y : β} (hx : l[k]? = some x)
    (hy : l'[k]? = some y) : R x y := by
  induction h generalizing k with
  | nil => cases hx
  | cons hxy _ ih =>
    cases k with
    | zero =>
      obtain rfl := Option.some.inj hx
      obtain rfl := Option.some.inj hy
      exact hxy
    | succ k => exact ih hx hy

theorem getElem?_of_zip {params args : List ValueId} (hnodup : params.Nodup) {k : Nat}
    {p a : ValueId} (hk : params[k]? = some p) (h : (p, a) ∈ params.zip args) :
    args[k]? = some a := by
  obtain ⟨i, hi⟩ := List.mem_iff_getElem?.1 h
  obtain ⟨hp, ha⟩ := List.getElem?_zip_eq_some.1 hi
  have hlt := (List.getElem?_eq_some_iff.1 hk).1
  rwa [(List.getElem?_inj hlt hnodup).1 (hk.trans hp.symm)]

variable {module : Module} {sig : Signature} {fn : Function} {m : Remap} {b : BlockId} {k : Nat}
  {p : ValueId}

/-- A jump of the function as it is read. -/
theorem pred_of_jump (h : (fn.through m).Ssa module sig) (hb : b < fn.blocks.length)
    {block : Block} (hblock : block ∈ (fn.through m).blocks) {term : Inst}
    (hterm : term ∈ block.insts) (hop : term.op = .jump) (ha : term.a = b) :
    ∃ c ∈ jumpPreds fn.blocks b,
      term.args = (jumpArgs fn.blocks c).map (resolveOperand m) := by
  obtain ⟨c, hc⟩ := List.mem_iff_getElem?.1 hblock
  obtain ⟨init, last, hsplit, hlast, hinit⟩ := h.closed_at hc
  rw [Function.through, List.getElem?_map] at hc
  obtain ⟨source, hsource, rfl⟩ := Option.map_eq_some_iff.1 hc
  have hfinal : term = last := by
    rw [hsplit] at hterm
    rcases List.mem_append.1 hterm with hmem | hmem
    · have hnot := hinit term hmem
      rw [hop] at hnot
      cases hnot
    · exact List.mem_singleton.1 hmem
  subst hfinal
  have hmap : (source.terminator?).map (mapValueOperands (resolveOperand m)) = some term := by
    rw [Block.terminator?, ← List.getLast?_map]
    dsimp only at hsplit
    rw [hsplit, List.getLast?_append, List.getLast?_singleton, Option.some_or]
  obtain ⟨origin, horigin, rfl⟩ := Option.map_eq_some_iff.1 hmap
  rw [mapValueOperands_op] at hop
  have hread : mapValueOperands (resolveOperand m) origin =
      { origin with args := origin.args.map (resolveOperand m) } := by
    simp only [mapValueOperands, hop]
  rw [hread] at ha ⊢
  refine ⟨c, mem_jumpPreds.2 ⟨hb, source, hsource, origin, horigin, hop, ha⟩, ?_⟩
  rw [jumpArgs, List.getD_eq_getElem?_getD, hsource, Option.getD_some, horigin]

/-- An argument of a jump, as it is read. -/
theorem arg_of_pred (h : (fn.through m).Ssa module sig)
    (hk : (fn.blocks.getD b {}).params[k]? = some p) {c : BlockId}
    (hc : c ∈ jumpPreds fn.blocks b) {arg : ValueId}
    (harg : (jumpArgs fn.blocks c)[k]? = some arg) :
    arg ≠ noValue ∧ (fn.through m).Has (resolve m arg) (· == fn.valueType p) ∧
      ∃ block ∈ (fn.through m).blocks, ∃ term ∈ block.insts,
        resolve m arg ∈ valueOperands term := by
  obtain ⟨-, block, hblock, term, hterm, hop, rfl⟩ := mem_jumpPreds.1 hc
  have hread : mapValueOperands (resolveOperand m) term =
      { term with args := term.args.map (resolveOperand m) } := by
    simp only [mapValueOperands, hop]
  have hmem : { block with insts := block.insts.map (mapValueOperands (resolveOperand m)) } ∈
      (fn.through m).blocks := List.mem_map_of_mem (List.mem_of_getElem? hblock)
  have hinst : mapValueOperands (resolveOperand m) term ∈
      block.insts.map (mapValueOperands (resolveOperand m)) :=
    List.mem_map_of_mem (List.mem_of_getLast? hterm)
  have htyped := h.typed _ hmem _ hinst
  rw [jumpArgs, List.getD_eq_getElem?_getD, hblock, Option.getD_some, hterm] at harg
  have harg' : (term.args.map (resolveOperand m))[k]? = some (resolveOperand m arg) := by
    rw [List.getElem?_map, harg, Option.map_some]
  rw [hread] at htyped hinst
  simp only [Inst.WellTyped, hop] at htyped
  obtain ⟨target, htarget, htypes⟩ := htyped
  have hk' : target.params[k]? = some p := by
    rw [← Function.getD_blocks htarget, params_through]
    exact hk
  have hhas := forall₂_getElem? htypes harg' hk'
  have hne : arg ≠ noValue := by
    rintro rfl
    exact hhas.ne (resolveOperand_noValue m)
  rw [resolveOperand_of_ne m hne] at hhas harg'
  refine ⟨hne, hhas, _, hmem, _, hinst, ?_⟩
  rw [valueOperands.eq_def, hop]
  exact List.mem_of_getElem? harg'

/-- The jumps to the block pass one value, or the parameter itself. -/
theorem edges_of_uniqueArg (h : (fn.through m).Ssa module sig)
    (hk : (fn.blocks.getD b {}).params[k]? = some p) {u : ValueId}
    (hunique : uniqueArg m fn.blocks p k (jumpPreds fn.blocks b) noValue = some u)
    {block : Block} (hblock : block ∈ (fn.through m).blocks) {term : Inst}
    (hterm : term ∈ block.insts) (hop : term.op = .jump) (ha : term.a = b) {a : ValueId}
    (hzip : (p, a) ∈ ((fn.through m).blocks.getD b {}).params.zip term.args) : a = u ∨ a = p := by
  obtain ⟨c, hc, hargs⟩ := pred_of_jump h (lt_length_of_param hk) hblock hterm hop ha
  have hat := getElem?_of_zip (h.params_nodup b) (by rw [params_through]; exact hk) hzip
  obtain ⟨arg, harg, hcases⟩ := (uniqueArg_spec hunique).2.1 c hc
  obtain ⟨hne, hhas, -⟩ := arg_of_pred h hk hc harg
  rw [hargs, List.getElem?_map, harg, Option.map_some] at hat
  rw [resolveOperand_of_ne m hne] at hat
  obtain rfl := Option.some.inj hat
  exact (hcases.resolve_left hhas.ne).symm

end

/-! ## The sweep -/

/-- What holds in the sweep over the parameters. -/
structure ParamInv (module : Module) (sig : Signature) (pb : Nat) (orig fn : Function)
    (s : ParamSweep) : Prop where
  preserved : Function.Preserved module sig pb orig
    (Function.through s.remap { fn with blocks := s.blocks })
  chain : Chain s.remap
  params : ∀ b, ∀ p ∈ (s.blocks.getD b {}).params, s.remap.lookup p = none
  used : ∀ block ∈ (Function.through s.remap { fn with blocks := s.blocks }).blocks,
    ∀ inst ∈ block.insts, ∀ v ∈ valueOperands inst, v ≠ noValue → v ∈ usedValues fn.blocks
  preds : ∀ b, jumpPreds s.blocks b = jumpPreds fn.blocks b
  changed : s.changed = false → s.remap = []

section

variable {module : Module} {sig : Signature} {orig fn : Function} {pb : Nat}

theorem jumpPreds_congr {blocks blocks' : List Block} {b : BlockId}
    (hlength : blocks'.length = blocks.length)
    (h : ∀ c, c ∈ jumpPreds blocks' b ↔ c ∈ jumpPreds blocks b) :
    jumpPreds blocks' b = jumpPreds blocks b := by
  rw [jumpPreds, jumpPreds, hlength]
  refine List.filter_congr fun c hc => ?_
  have hc' := h c
  rw [jumpPreds, jumpPreds, hlength, List.mem_filter, List.mem_filter] at hc'
  simp only [hc, true_and] at hc'
  exact Bool.eq_iff_iff.2 hc'

theorem length_eraseParam (preds : List BlockId) (b : BlockId) (k : Nat) (blocks : List Block) :
    (eraseParam preds b k blocks).length = blocks.length := by
  have hfold (blocks : List Block) :
      (preds.foldl (fun blocks pred => blocks.modify pred (eraseArg k)) blocks).length =
        blocks.length := by
    induction preds generalizing blocks with
    | nil => rfl
    | cons pred preds ih => rw [List.foldl_cons, ih, List.length_modify]
  rw [eraseParam, hfold, List.length_modify]

theorem terminator?_eraseArg (k : Nat) (block : Block) : (eraseArg k block).terminator? =
    block.terminator?.map fun term => { term with args := term.args.eraseIdx k } := by
  rw [eraseArg]
  cases hlast : block.insts.getLast? with
  | none =>
    dsimp only
    rw [Block.terminator?, hlast, Option.map_none]
  | some term =>
    dsimp only
    rw [Block.terminator?, Block.terminator?, hlast, List.getLast?_append,
      List.getLast?_singleton, Option.some_or, Option.map_some]

/-- The blocks go on jumping where they did. -/
theorem jumpPreds_eraseParam (blocks : List Block) (b : BlockId) (k : Nat) (d : BlockId) :
    jumpPreds (eraseParam (jumpPreds blocks b) b k blocks) d = jumpPreds blocks d := by
  refine jumpPreds_congr (length_eraseParam _ _ _ _) fun c => ?_
  rw [mem_jumpPreds, mem_jumpPreds, length_eraseParam, getElem?_eraseParam (jumpPreds_nodup _ _)]
  rcases hc : blocks[c]? with _ | block
  · rfl
  refine and_congr_right fun _ => ?_
  simp only [Option.map_some, Option.some.injEq, exists_eq_left']
  have hterm : (if b = c then { block with params := block.params.eraseIdx k } else
      block).terminator? = block.terminator? := by
    split <;> rfl
  split
  · rw [terminator?_eraseArg, hterm]
    cases block.terminator? <;> simp
  · rw [hterm]

/-- A parameter and its column of arguments go. -/
theorem ParamInv.erase {s : ParamSweep} (h : ParamInv module sig pb orig fn s) {b : BlockId}
    {k : Nat} {p : ValueId} (hk : (s.blocks.getD b {}).params[k]? = some p)
    {σ : ValueId → ValueId} {m : Remap} (hσ : σ noValue = noValue)
    (hm : resolveOperand m = σ ∘ resolveOperand s.remap) (hchain : Chain m)
    (hlookup : ∀ q, q ≠ p → s.remap.lookup q = none → m.lookup q = none)
    (hused : ∀ v, v ∈ usedValues fn.blocks → σ v ∈ usedValues fn.blocks)
    (hedit : (Function.through s.remap { fn with blocks := s.blocks }).Edit pb σ (· ≠ p)
      ((Function.through s.remap { fn with blocks := s.blocks }).renamed σ (· ≠ p)))
    (stats : PeepholeStats) :
    ParamInv module sig pb orig fn
      { blocks := eraseParam (jumpPreds s.blocks b) b k s.blocks, remap := m, stats,
        changed := true } := by
  have hnext := through_eraseParam h.preserved.ssa hk hσ hm
  dsimp only at hnext
  refine ⟨?_, hchain, fun d q hq => ?_, ?_, fun d => ?_, fun hchanged => by cases hchanged⟩
  · dsimp only
    rw [hnext]
    exact h.preserved.edit hedit
  · -- the parameters that are left
    dsimp only at hq ⊢
    have hq' : q ∈ (s.blocks.getD d {}).params ∧ q ≠ p := by
      have hparams := params_through m
        { fn with blocks := eraseParam (jumpPreds s.blocks b) b k s.blocks } d
      rw [hnext] at hparams
      dsimp only at hparams
      rw [← hparams, Function.renamed, Function.through, List.map_map,
        List.getD_eq_getElem?_getD, List.getElem?_map] at hq
      rw [List.getD_eq_getElem?_getD]
      cases hd : s.blocks[d]? with
      | none =>
        rw [hd] at hq
        cases hq
      | some block =>
        rw [hd] at hq
        obtain ⟨hq, hne⟩ := List.mem_filter.1 hq
        exact ⟨hq, of_decide_eq_true hne⟩
    exact hlookup q hq'.2 (h.params d q hq'.1)
  · dsimp only
    rw [hnext]
    intro block hblock inst hinst v hv hne
    obtain ⟨source, hsource, rfl⟩ := List.mem_map.1 hblock
    obtain ⟨origin, horigin, rfl⟩ := List.mem_map.1 hinst
    have hsub : ∃ u ∈ valueOperands origin, σ u = v := by
      split at hv
      · exact List.mem_map.1 (editTerm_operands origin hv)
      · exact List.mem_map.1 (valueOperands_map_subset origin hv)
    obtain ⟨u, hu, rfl⟩ := hsub
    refine hused u (h.used source hsource origin horigin u hu ?_)
    rintro rfl
    exact hne hσ
  · dsimp only
    rw [jumpPreds_eraseParam, h.preds]

/-- A parameter that nothing reads. -/
theorem ParamInv.drop {s : ParamSweep} (h : ParamInv module sig pb orig fn s) {b : BlockId}
    (hroot : b ≠ 0) {k : Nat} {p : ValueId} (hk : (s.blocks.getD b {}).params[k]? = some p)
    (hunused : p ∉ usedValues fn.blocks) (stats : PeepholeStats) :
    ParamInv module sig pb orig fn
      { blocks := eraseParam (jumpPreds s.blocks b) b k s.blocks, remap := s.remap, stats,
        changed := true } := by
  have hssa := h.preserved.ssa
  have hp := mem_params_through s.remap { fn with blocks := s.blocks } hk
  refine h.erase hk rfl rfl h.chain (fun _ _ hq => hq) (fun _ hv => hv) ?_ stats
  refine hssa.edit_unused_param hp hroot fun block hblock inst hinst hmem => hunused ?_
  exact h.used block hblock inst hinst p hmem (hssa.param_ne_noValue hp)

/-- A parameter that gets the same value from every jump. -/
theorem ParamInv.replace {s : ParamSweep} (h : ParamInv module sig pb orig fn s) {b : BlockId}
    (hroot : b ≠ 0) {k : Nat} {p : ValueId} (hk : (s.blocks.getD b {}).params[k]? = some p)
    {u : ValueId} (hu : u ≠ noValue)
    (hunique : uniqueArg s.remap s.blocks p k (jumpPreds s.blocks b) noValue = some u)
    (stats : PeepholeStats) :
    ParamInv module sig pb orig fn
      { blocks := eraseParam (jumpPreds s.blocks b) b k s.blocks, remap := (p, u) :: s.remap,
        stats, changed := true } := by
  have hssa := h.preserved.ssa
  have hp := mem_params_through s.remap { fn with blocks := s.blocks } hk
  have hpne := hssa.param_ne_noValue hp
  -- the value is an argument of some jump: it has the type of the parameter, and it is read
  obtain ⟨c, hc, arg, harg, rfl, hne⟩ := (uniqueArg_spec hunique).2.2.resolve_left hu
  obtain ⟨-, hhas, block, hblock, term, hterm, hoperand⟩ :=
    arg_of_pred hssa hk hc harg
  have hlookup := h.params b p (List.mem_of_getElem? hk)
  have hend := h.chain.lookup_resolve arg
  have hσ : Function.update id p (resolve s.remap arg) noValue = noValue := by
    rw [Function.update_of_ne (Ne.symm hpne), id_eq]
  refine h.erase hk hσ (h.chain.resolveOperand_cons hlookup hend hne hpne)
    (h.chain.cons hlookup hend hne) (fun q hq hnone => ?_) (fun v hv => ?_) ?_ stats
  · rw [lookup_cons_ne hq]
    exact hnone
  · by_cases hvp : v = p
    · rw [hvp, Function.update_self]
      exact h.used block hblock term hterm _ hoperand hu
    · rwa [Function.update_of_ne hvp, id_eq]
  · refine hssa.edit_param hp (fun block hblock term hterm hop ha a hzip => ?_) hroot hne
      ⟨fun _ => hhas.1, beq_iff_eq.1 hhas.2⟩ hu
    exact edges_of_uniqueArg hssa hk hunique hblock hterm
      hop ha hzip

/-- The parameters of a block. -/
theorem foldParams_inv {b : BlockId} (hroot : b ≠ 0) (n : Nat) {k : Nat} {s : ParamSweep}
    (h : ParamInv module sig pb orig fn s) : ParamInv module sig pb orig fn
      (foldParams (jumpPreds fn.blocks b) (usedValues fn.blocks) b n k s) := by
  induction n generalizing k s with
  | zero => exact h
  | succ n ih =>
    rw [foldParams]
    split
    · exact h
    rename_i p hk
    dsimp only
    split
    · exact ih h
    rename_i u hunique
    rw [← h.preds] at hunique ⊢
    split_ifs with hnothing hunused
    · rw [h.preds]
      exact ih h
    · have hnext := ih (k := k) (h.drop hroot hk (by simpa using hunused)
        { s.stats with paramsRemoved := s.stats.paramsRemoved + 1 })
      rwa [h.preds] at hnext ⊢
    · have hu : u ≠ noValue := fun hu => hnothing ⟨hu, by simpa using hunused⟩
      have hnext := ih (k := k) (h.replace hroot hk hu hunique
        { s.stats with paramsRemoved := s.stats.paramsRemoved + 1 })
      rwa [h.preds] at hnext ⊢

theorem ParamInv.foldl {bs : List BlockId} (hbs : ∀ b ∈ bs, b ≠ 0) {s : ParamSweep}
    (h : ParamInv module sig pb orig fn s) : ParamInv module sig pb orig fn
      (bs.foldl (fun s b =>
        let params := (s.blocks.getD b {}).params
        let preds := jumpPreds fn.blocks b
        if params.isEmpty || preds.isEmpty then s
        else foldParams preds (usedValues fn.blocks) b params.length 0 s) s) := by
  induction bs generalizing s with
  | nil => exact h
  | cons b bs ih =>
    obtain ⟨hb, hbs⟩ := List.forall_mem_cons.1 hbs
    refine ih hbs ?_
    dsimp only
    split
    · exact h
    · exact foldParams_inv hb _ h

/-- Before the first block. -/
theorem Function.Preserved.params (h : Function.Preserved module sig pb orig fn)
    (stats : PeepholeStats) :
    ParamInv module sig pb orig fn { blocks := fn.blocks, stats } where
  preserved := by
    rw [Function.through_nil]
    exact h
  chain := .nil
  params := fun _ _ _ => rfl
  used := by
    rw [Function.through_nil]
    exact fun block hblock inst hinst v hv hne => mem_usedValues hblock hinst hv hne
  preds := fun _ => rfl
  changed := fun _ => rfl

/-- The trivial parameters. -/
theorem foldTrivialParams_preserved (h : Function.Preserved module sig pb orig fn)
    (stats : PeepholeStats) :
    Function.Preserved module sig pb orig (foldTrivialParams fn stats).1 := by
  have hroots : ∀ b ∈ (List.range fn.blocks.length).drop 1, b ≠ 0 := by
    intro b hb
    obtain ⟨i, hi⟩ := List.mem_iff_getElem?.1 hb
    rw [List.getElem?_drop] at hi
    obtain ⟨_, heq⟩ := List.getElem?_eq_some_iff.1 hi
    rw [List.getElem_range] at heq
    omega
  have hend := (h.params stats).foldl hroots
  have hpreserved := hend.preserved
  rw [through_applyRemap] at hpreserved
  rw [foldTrivialParams]
  dsimp only
  split
  · exact hpreserved
  · rename_i hchanged
    rw [hend.changed (by simpa using hchanged)] at hpreserved
    exact hpreserved

end

end Mirage
