import Mirage.Lib.Availability
import Mirage.Mir.Meaning

/-!
# Values are what they are defined as

In a function in SSA form (`Function.Ssa`) every value is defined once, and before its uses: on
every path from the entry. What this gives a run is that a value that is available has, in the
registers of the moment, the value that its instruction has on the operands of the moment
(`Function.Holds`), however often the registers were written since.

* `Ssa.holds_entry`, `Ssa.holds_step`, `Ssa.holds_goto`: at the entry, behind an instruction and
  in the next block.
-/

namespace Mirage

open Dominators

/-! ## Operands -/

@[simp] theorem mapValueOperands_op (f : ValueId → ValueId) (inst : Inst) :
    (mapValueOperands f inst).op = inst.op := by
  unfold mapValueOperands
  split <;> first | rfl | (split <;> rfl)

@[simp] theorem mapValueOperands_type (f : ValueId → ValueId) (inst : Inst) :
    (mapValueOperands f inst).type = inst.type := by
  unfold mapValueOperands
  split <;> first | rfl | (split <;> rfl)

@[simp] theorem mapValueOperands_imm (f : ValueId → ValueId) (inst : Inst) :
    (mapValueOperands f inst).imm = inst.imm := by
  unfold mapValueOperands
  split <;> first | rfl | (split <;> rfl)

@[simp] theorem mapValueOperands_result (f : ValueId → ValueId) (inst : Inst) :
    (mapValueOperands f inst).result = inst.result := by
  unfold mapValueOperands
  split <;> first | rfl | (split <;> rfl)

theorem value?_congr {inst inst' : Inst} (hop : inst.op = inst'.op)
    (htype : inst.type = inst'.type) (himm : inst.imm = inst'.imm) (pb : Nat) :
    inst.value? pb = inst'.value? pb := by
  cases inst
  cases inst'
  dsimp only at hop htype himm
  subst hop htype himm
  rfl

theorem value?_shape (pb : Nat) (inst : Inst) : inst.shape.value? pb = inst.value? pb :=
  value?_congr (mapValueOperands_op _ _) (mapValueOperands_type _ _) (mapValueOperands_imm _ _) pb

/-! ## Definitions -/

/-- The values that a block defines. -/
def Block.defined (block : Block) : List ValueId :=
  block.params ++ (block.insts.map Inst.result).filter (· ≠ noValue)

/-- The block defines the value. -/
def Function.Defs (fn : Function) (b : BlockId) (v : ValueId) : Prop :=
  ∃ block, fn.blocks[b]? = some block ∧ v ∈ block.defined

/-- The instruction defines the value. -/
structure Function.DefinedBy (fn : Function) (v : ValueId) (inst : Inst) : Prop where
  result : inst.result = v
  ne : v ≠ noValue
  mem : ∃ block ∈ fn.blocks, inst ∈ block.insts

/-- The block can be reached. -/
def Function.Reach (fn : Function) (b : BlockId) : Prop := Reachable fn.successors 0 b

/-- The value is defined behind these first instructions of a block, whatever the path was. -/
def Function.Avail (fn : Function) (b : BlockId) (pre : List Inst) (v : ValueId) : Prop :=
  v ≠ noValue ∧ (v ∈ (fn.blocks.getD b {}).params ∨ v ∈ pre.map Inst.result ∨
    Above fn.successors 0 fn.Defs b v)

/-- The block can be reached, and these are the first of its instructions. -/
structure Function.Front (fn : Function) (b : BlockId) (pre : List Inst) : Prop where
  reach : fn.Reach b
  exists_block : pre ≠ [] → ∃ block post, fn.blocks[b]? = some block ∧ block.insts = pre ++ post

/-- The function is in SSA form, and well typed. -/
structure Function.Ssa (module : Module) (sig : Signature) (fn : Function) : Prop where
  entry : fn.blocks ≠ []
  closed : ∀ block ∈ fn.blocks, ∃ init last, block.insts = init ++ [last] ∧
    isTerminator last.op = true ∧ ∀ inst ∈ init, isTerminator inst.op = false
  typed : ∀ block ∈ fn.blocks, ∀ inst ∈ block.insts, inst.WellTyped module fn sig
  results : ∀ block ∈ fn.blocks, ∀ inst ∈ block.insts,
    inst.result ≠ noValue ↔ definesValue inst.op = true ∧ inst.type ≠ .void
  recorded : ∀ block ∈ fn.blocks, ∀ inst ∈ block.insts, inst.result ≠ noValue →
    fn.valueType inst.result = inst.type
  named : ∀ block ∈ fn.blocks, ∀ p ∈ block.params, p ≠ noValue
  once : (fn.blocks.flatMap Block.defined).Nodup
  uses : ∀ b block, fn.Reach b → fn.blocks[b]? = some block → ∀ pre inst post,
    block.insts = pre ++ inst :: post → ∀ v ∈ valueOperands inst, fn.Avail b pre v

section

variable {module : Module} {sig : Signature} {fn : Function} {pb : Nat}

theorem Block.result_mem_defined {block : Block} {inst : Inst} (h : inst ∈ block.insts)
    (hne : inst.result ≠ noValue) : inst.result ∈ block.defined :=
  List.mem_append_right _ (List.mem_filter.2 ⟨List.mem_map_of_mem h, decide_eq_true hne⟩)

/-- Where an instruction is that defines a value. -/
theorem Function.DefinedBy.exists_defs {v : ValueId} {inst : Inst} (hdef : fn.DefinedBy v inst) :
    ∃ b block, fn.blocks[b]? = some block ∧ inst ∈ block.insts ∧ fn.Defs b v := by
  obtain ⟨block, hblock, hinst⟩ := hdef.mem
  obtain ⟨b, hb⟩ := List.mem_iff_getElem?.1 hblock
  have hmem := Block.result_mem_defined hinst (hdef.result ▸ hdef.ne)
  exact ⟨b, block, hb, hinst, block, hb, hdef.result ▸ hmem⟩

theorem Function.getD_blocks {b : BlockId} {block : Block} (h : fn.blocks[b]? = some block) :
    fn.blocks.getD b {} = block := by
  rw [List.getD_eq_getElem?_getD, h, Option.getD_some]

theorem switchTarget_mem (type : Ty) (x : BitVec 64) (default : BlockId) (args : List Nat) :
    switchTarget type x default args ∈ default :: caseTargets args := by
  induction args using caseTargets.induct with
  | case1 value target rest ih =>
    rw [switchTarget, caseTargets]
    split
    · exact List.mem_cons_of_mem _ List.mem_cons_self
    · rcases List.mem_cons.1 ih with he | hmem
      · rw [he]
        exact List.mem_cons_self
      · exact List.mem_cons_of_mem _ (List.mem_cons_of_mem _ hmem)
  | case2 args hargs =>
    rw [switchTarget]
    · exact List.mem_cons_self
    · exact hargs

theorem Function.successors_eq {b : BlockId} {block : Block} (hb : fn.blocks[b]? = some block)
    {pre : List Inst} {term : Inst} (hsplit : block.insts = pre ++ [term]) :
    fn.successors b = term.successors := by
  rw [Function.successors, Function.getD_blocks hb, Block.successors, Block.terminator?, hsplit,
    List.getLast?_append, List.getLast?_singleton, Option.some_or]

/-- A terminator goes to a successor, and passes values of the types of its parameters. -/
theorem exit_goto {term : Inst} {ρ : Regs} {target : BlockId} {args : List (BitVec 64)}
    (htyped : term.WellTyped module fn sig) (h : fn.exit term ρ = some (.goto target args)) :
    target ∈ term.successors ∧ ∃ targs, args = targs.map ρ ∧ fn.JumpsTo target targs ∧
      targs ⊆ valueOperands term := by
  rw [Function.exit] at h
  split at h
  · rename_i hop
    obtain ⟨rfl, rfl⟩ := BlockExit.goto.inj (Option.some.inj h)
    simp only [Inst.WellTyped, hop] at htyped
    refine ⟨by simp [Inst.successors, hop], term.args, rfl, htyped, ?_⟩
    simp [valueOperands, hop]
  · rename_i hop
    obtain ⟨rfl, rfl⟩ := BlockExit.goto.inj (Option.some.inj h)
    simp only [Inst.WellTyped, hop] at htyped
    refine ⟨?_, [], rfl, ?_, List.nil_subset _⟩
    · have hsucc : term.successors = [term.b, term.c] := by simp only [Inst.successors, hop]
      rw [hsucc]
      split <;> simp
    · split
      · exact htyped.2.2
      · exact htyped.2.1
  · rename_i hop
    obtain ⟨rfl, rfl⟩ := BlockExit.goto.inj (Option.some.inj h)
    simp only [Inst.WellTyped, hop] at htyped
    have hmem := switchTarget_mem (fn.valueType term.a) (ρ term.a) term.b term.args
    refine ⟨by simpa only [Inst.successors, hop] using hmem, [], rfl, ?_, List.nil_subset _⟩
    rcases List.mem_cons.1 hmem with he | hmem
    · rw [he]
      exact htyped.2.1
    · exact htyped.2.2.2 _ hmem
  · cases h
  · cases h

theorem Function.Reach.goto {b target : BlockId} (h : fn.Reach b)
    (htarget : target ∈ fn.successors b) : fn.Reach target := by
  obtain ⟨l, hl⟩ := h
  exact ⟨target :: l, hl.step htarget⟩

theorem bindParams_of_not_mem {params : List ValueId} {args : List (BitVec 64)} {ρ : Regs}
    {v : ValueId} (h : v ∉ params) : bindParams params args ρ v = ρ v := by
  have hlookup : (params.zip args).lookup v = none := by
    rw [List.lookup_eq_none_iff]
    rintro ⟨p, x⟩ hp
    have hne : v ≠ p := fun he => h (he ▸ (List.of_mem_zip hp).1)
    simpa using hne
  rw [bindParams, hlookup, Option.getD_none]

/-- A parameter gets its own argument. -/
theorem bindParams_of_mem {params : List ValueId} (hnodup : params.Nodup)
    {args : List (BitVec 64)} {ρ : Regs} {v : ValueId} {x : BitVec 64}
    (h : (v, x) ∈ params.zip args) : bindParams params args ρ v = x := by
  rw [bindParams]
  induction params generalizing args with
  | nil => cases h
  | cons p params ih =>
    rcases args with _ | ⟨y, args⟩
    · cases h
    obtain ⟨hp, hnodup⟩ := List.nodup_cons.1 hnodup
    rw [List.zip_cons_cons] at h ⊢
    rcases List.mem_cons.1 h with he | h
    · obtain ⟨rfl, rfl⟩ := Prod.mk.inj he
      rw [List.lookup_cons_self, Option.getD_some]
    · have hne : v ≠ p := fun he => hp (he ▸ (List.of_mem_zip h).1)
      rw [List.lookup_cons, beq_eq_false_iff_ne.2 hne]
      exact ih hnodup h

theorem exists_arg {α : Type} {R : α → ValueId → Prop} {args : List α} {params : List ValueId}
    (h : List.Forall₂ R args params) {p : ValueId} (hp : p ∈ params) :
    ∃ x, (p, x) ∈ params.zip args ∧ R x p := by
  induction h with
  | nil => cases hp
  | @cons x q args params hx _ ih =>
    rcases List.mem_cons.1 hp with rfl | hp
    · exact ⟨x, List.mem_cons_self, hx⟩
    · obtain ⟨y, hmem, hy⟩ := ih hp
      exact ⟨y, List.mem_cons_of_mem _ hmem, hy⟩

namespace Function.Ssa

variable (h : fn.Ssa module sig)

include h

theorem defined_nodup {block : Block} (hb : block ∈ fn.blocks) : block.defined.Nodup :=
  (List.nodup_flatMap.1 h.once).1 block hb

theorem once_defs : Once fn.Defs := by
  rintro v b c ⟨block, hb, hv⟩ ⟨block', hc, hv'⟩
  have hpair := (List.nodup_flatMap.1 h.once).2
  rw [List.pairwise_iff_getElem] at hpair
  obtain ⟨hblt, rfl⟩ := List.getElem?_eq_some_iff.1 hb
  obtain ⟨hclt, rfl⟩ := List.getElem?_eq_some_iff.1 hc
  rcases lt_trichotomy b c with hlt | heq | hlt
  · exact absurd hv' (hpair b c hblt hclt hlt hv)
  · exact heq
  · exact absurd hv (hpair c b hclt hblt hlt hv')

/-- The result of an instruction is neither a parameter of its block nor the result of one
    before. -/
theorem result_fresh {block : Block} (hb : block ∈ fn.blocks) {pre post : List Inst} {inst : Inst}
    (hsplit : block.insts = pre ++ inst :: post) (hne : inst.result ≠ noValue) :
    inst.result ∉ block.params ∧ inst.result ∉ pre.map Inst.result := by
  have hnodup := h.defined_nodup hb
  rw [Block.defined, hsplit, List.map_append, List.filter_append, List.map_cons,
    List.filter_cons_of_pos (by simpa using hne)] at hnodup
  obtain ⟨-, hright, hparams⟩ := List.nodup_append.1 hnodup
  obtain ⟨-, -, hresults⟩ := List.nodup_append.1 hright
  refine ⟨fun hmem => hparams _ hmem _ ?_ rfl, fun hmem => hresults _ ?_ _ List.mem_cons_self rfl⟩
  · exact List.mem_append_right _ List.mem_cons_self
  · exact List.mem_filter.2 ⟨hmem, by simpa using hne⟩

/-- A value is not available where it is defined. -/
theorem not_avail_result {b : BlockId} {block : Block} (hb : fn.blocks[b]? = some block)
    {pre post : List Inst} {inst : Inst} (hsplit : block.insts = pre ++ inst :: post) :
    ¬ fn.Avail b pre inst.result := by
  rintro ⟨hne, hmem⟩
  obtain ⟨hparams, hresults⟩ := h.result_fresh (List.mem_of_getElem? hb) hsplit hne
  rw [Function.getD_blocks hb] at hmem
  rcases hmem with hmem | hmem | hmem
  · exact hparams hmem
  · exact hresults hmem
  · refine not_above_own h.once_defs ⟨block, hb, Block.result_mem_defined ?_ hne⟩ hmem
    rw [hsplit]
    exact List.mem_append_right _ List.mem_cons_self

/-- What is above a block is no parameter of it. -/
theorem not_above_param {b : BlockId} {v : ValueId} (hv : v ∈ (fn.blocks.getD b {}).params) :
    ¬ Above fn.successors 0 fn.Defs b v := by
  rw [List.getD_eq_getElem?_getD] at hv
  rcases hb : fn.blocks[b]? with _ | block
  · rw [hb] at hv
    cases hv
  · rw [hb] at hv
    exact not_above_own h.once_defs ⟨block, hb, List.mem_append_left _ hv⟩

/-- One instruction defines a value. -/
theorem definedBy_unique {b : BlockId} {block : Block} (hb : fn.blocks[b]? = some block)
    {inst inst' : Inst} (hinst : inst ∈ block.insts) (hdef : fn.DefinedBy inst.result inst') :
    inst' = inst ∧ inst' ∈ block.insts := by
  obtain ⟨block', hblock', hinst'⟩ := hdef.mem
  obtain ⟨c, hc⟩ := List.mem_iff_getElem?.1 hblock'
  have hne' : inst'.result ≠ noValue := hdef.result ▸ hdef.ne
  have hdefs : fn.Defs b inst.result := ⟨block, hb, Block.result_mem_defined hinst hdef.ne⟩
  have hdefs' : fn.Defs c inst.result :=
    ⟨block', hc, hdef.result ▸ Block.result_mem_defined hinst' hne'⟩
  obtain rfl := h.once_defs _ _ _ hdefs hdefs'
  obtain rfl := Option.some.inj (hb.symm.trans hc)
  obtain ⟨pre, post, hsplit⟩ := List.append_of_mem hinst
  rw [hsplit] at hinst'
  rcases List.mem_append.1 hinst' with hmem | hmem
  · have := (h.result_fresh (List.mem_of_getElem? hb) hsplit hdef.ne).2
    exact absurd (hdef.result ▸ List.mem_map_of_mem hmem) this
  · rcases List.mem_cons.1 hmem with rfl | hmem
    · exact ⟨rfl, hinst⟩
    · obtain ⟨pre', post', hpost⟩ := List.append_of_mem hmem
      have hsplit' : block.insts = (pre ++ inst :: pre') ++ inst' :: post' := by
        rw [hsplit, hpost, List.append_assoc, List.cons_append]
      have := (h.result_fresh (List.mem_of_getElem? hb) hsplit' hne').2
      refine absurd ?_ this
      rw [hdef.result]
      exact List.mem_map_of_mem (List.mem_append_right _ List.mem_cons_self)

/-- A parameter is the result of no instruction. -/
theorem not_definedBy_param {b : BlockId} {v : ValueId} (hv : v ∈ (fn.blocks.getD b {}).params)
    {inst : Inst} (hdef : fn.DefinedBy v inst) : False := by
  obtain ⟨c, block, hc, hinst, hdefs⟩ := hdef.exists_defs
  rcases hb : fn.blocks[b]? with _ | block'
  · rw [List.getD_eq_getElem?_getD, hb] at hv
    cases hv
  rw [Function.getD_blocks hb] at hv
  obtain rfl := h.once_defs _ _ _ hdefs ⟨block', hb, List.mem_append_left _ hv⟩
  obtain rfl := Option.some.inj (hb.symm.trans hc)
  obtain ⟨pre, post, hsplit⟩ := List.append_of_mem hinst
  have hfresh := h.result_fresh (List.mem_of_getElem? hb) hsplit (hdef.result ▸ hdef.ne)
  exact hfresh.1 (hdef.result ▸ hv)

/-- The operands of the instruction of a value above a block are above it. -/
theorem above_operand {b : BlockId} (hreach : fn.Reach b) {v u : ValueId}
    (hv : Above fn.successors 0 fn.Defs b v) {inst : Inst} (hdef : fn.DefinedBy v inst)
    (hu : u ∈ valueOperands inst) : u ≠ noValue ∧ Above fn.successors 0 fn.Defs b u := by
  obtain ⟨c, block, hc, hinst, hdefs⟩ := hdef.exists_defs
  obtain ⟨d, hne, hdom, hd⟩ := hv
  obtain rfl := h.once_defs _ _ _ hdefs hd
  obtain ⟨pre, post, hsplit⟩ := List.append_of_mem hinst
  have huse := h.uses c block (hdom.reachable hreach) hc pre inst post hsplit u hu
  refine ⟨huse.1, above_of_above hreach hne hdom ?_⟩
  rcases huse.2 with hu | hu | hu
  · rw [Function.getD_blocks hc] at hu
    exact .inl ⟨block, hc, List.mem_append_left _ hu⟩
  · obtain ⟨inst', hinst', rfl⟩ := List.mem_map.1 hu
    refine .inl ⟨block, hc, Block.result_mem_defined ?_ huse.1⟩
    rw [hsplit]
    exact List.mem_append_left _ hinst'
  · exact .inr hu

/-- The operands of the instruction of an available value are available. -/
theorem avail_operand {b : BlockId} {pre : List Inst} (hfront : fn.Front b pre) {v u : ValueId}
    (hv : fn.Avail b pre v) {inst : Inst} (hdef : fn.DefinedBy v inst)
    (hu : u ∈ valueOperands inst) : fn.Avail b pre u := by
  have hreach := hfront.reach
  rcases hv.2 with hparam | hresult | habove
  · exact (h.not_definedBy_param hparam hdef).elim
  · obtain ⟨inst', hinst', rfl⟩ := List.mem_map.1 hresult
    obtain ⟨block, post, hb, hsplit⟩ := hfront.exists_block (List.ne_nil_of_mem hinst')
    have hmem : inst' ∈ block.insts := hsplit ▸ List.mem_append_left _ hinst'
    obtain ⟨rfl, -⟩ := h.definedBy_unique hb hmem hdef
    obtain ⟨p, q, rfl⟩ := List.append_of_mem hinst'
    have huse := h.uses b block hreach hb p inst (q ++ post)
      (by rw [hsplit, List.append_assoc, List.cons_append]) u hu
    refine ⟨huse.1, huse.2.imp id (Or.imp (fun hu => ?_) id)⟩
    rw [List.map_append]
    exact List.mem_append_left _ hu
  · obtain ⟨hne, hu⟩ := h.above_operand hreach habove hdef hu
    exact ⟨hne, .inr (.inr hu)⟩

/-! ## Exits -/

theorem terminator_result {block : Block} (hb : block ∈ fn.blocks) {term : Inst}
    (hmem : term ∈ block.insts) (hterm : isTerminator term.op = true) : term.result = noValue := by
  by_contra hne
  have hdefines := ((h.results block hb term hmem).1 hne).1
  rw [definesValue, if_pos hterm] at hdefines
  cases hdefines

/-- What is above a successor is available behind the block. -/
theorem avail_of_above {b target : BlockId} {block : Block} (hb : fn.blocks[b]? = some block)
    {pre : List Inst} {term : Inst} (hsplit : block.insts = pre ++ [term])
    (hterm : isTerminator term.op = true) (htarget : target ∈ fn.successors b) {v : ValueId}
    (hne : v ≠ noValue) (hv : Above fn.successors 0 fn.Defs target v) : fn.Avail b pre v := by
  refine ⟨hne, ?_⟩
  rcases above_edge htarget hv with ⟨block', hb', hdef⟩ | habove
  · obtain rfl := Option.some.inj (hb.symm.trans hb')
    rw [Function.getD_blocks hb]
    rcases List.mem_append.1 hdef with hdef | hdef
    · exact .inl hdef
    · obtain ⟨inst, hinst, rfl⟩ := List.mem_map.1 (List.mem_filter.1 hdef).1
      rw [hsplit] at hinst
      rcases List.mem_append.1 hinst with hinst | hinst
      · exact .inr (.inl (List.mem_map_of_mem hinst))
      · obtain rfl := List.mem_singleton.1 hinst
        refine absurd (h.terminator_result (List.mem_of_getElem? hb) ?_ hterm) hne
        rw [hsplit]
        exact List.mem_append_right _ hinst
  · exact .inr (.inr habove)

end Function.Ssa

/-! ## The invariant of runs -/

/-- Available values are words of their types, and what their instructions give. -/
structure Function.Holds (fn : Function) (pb : Nat) (b : BlockId) (pre : List Inst) (ρ : Regs) :
    Prop where
  word : ∀ v, fn.Avail b pre v → IsWordOf pb (fn.valueType v) (ρ v)
  value : ∀ v inst, fn.Avail b pre v → fn.DefinedBy v inst →
    ∀ x, inst.value? pb (fn.operands inst ρ) = some x → ρ v = x

/-- What is available behind an instruction was so before, or is its result. -/
theorem Function.Avail.snoc {b : BlockId} {pre : List Inst} {inst : Inst} {v : ValueId}
    (hv : fn.Avail b (pre ++ [inst]) v) : fn.Avail b pre v ∨ v = inst.result := by
  rcases hv.2 with hparam | hresult | habove
  · exact .inl ⟨hv.1, .inl hparam⟩
  · rw [List.map_append] at hresult
    rcases List.mem_append.1 hresult with hresult | hresult
    · exact .inl ⟨hv.1, .inr (.inl hresult)⟩
    · exact .inr (List.mem_singleton.1 hresult)
  · exact .inl ⟨hv.1, .inr (.inr habove)⟩

theorem Function.operands_congr {inst : Inst} {ρ ρ' : Regs}
    (h : ∀ v ∈ valueOperands inst, ρ v = ρ' v) : fn.operands inst ρ = fn.operands inst ρ' :=
  List.map_congr_left fun v hv => by rw [h v hv]

/-- The arguments are words of the types of the parameters of a block. -/
def Function.TakesWords (fn : Function) (pb : Nat) (b : BlockId) (args : List (BitVec 64)) : Prop :=
  List.Forall₂ (fun x p => IsWordOf pb (fn.valueType p) x) args (fn.blocks.getD b {}).params

namespace Function.Ssa

variable (h : fn.Ssa module sig)

include h

theorem params_nodup (b : BlockId) : (fn.blocks.getD b {}).params.Nodup := by
  rcases hb : fn.blocks[b]? with _ | block
  · rw [List.getD_eq_getElem?_getD, hb]
    exact .nil
  · rw [Function.getD_blocks hb]
    exact (List.nodup_append.1 (h.defined_nodup (List.mem_of_getElem? hb))).1

/-- In a block that was entered the invariant is one of the arguments, and of what is above. -/
theorem holds_enter {target : BlockId} (hreach : fn.Reach target) {args : List (BitVec 64)}
    {ρ : Regs} (hargs : fn.TakesWords pb target args)
    (hword : ∀ v, v ≠ noValue → Above fn.successors 0 fn.Defs target v →
      IsWordOf pb (fn.valueType v) (ρ v))
    (hvalue : ∀ v inst, v ≠ noValue → Above fn.successors 0 fn.Defs target v →
      fn.DefinedBy v inst → ∀ x, inst.value? pb (fn.operands inst ρ) = some x → ρ v = x) :
    fn.Holds pb target [] (fn.enter target args ρ) := by
  have hsame {v : ValueId} (hv : Above fn.successors 0 fn.Defs target v) :
      fn.enter target args ρ v = ρ v :=
    bindParams_of_not_mem fun hmem => h.not_above_param hmem hv
  constructor
  · rintro v ⟨hne, hparam | hresult | habove⟩
    · obtain ⟨x, hmem, hx⟩ := exists_arg hargs hparam
      rw [Function.enter, bindParams_of_mem (h.params_nodup target) hmem]
      exact hx
    · cases hresult
    · rw [hsame habove]
      exact hword v hne habove
  · rintro v inst ⟨hne, hparam | hresult | habove⟩ hdef x hx
    · exact (h.not_definedBy_param hparam hdef).elim
    · cases hresult
    · rw [hsame habove]
      refine hvalue v inst hne habove hdef x ?_
      rw [← hx]
      exact congrArg _ (Function.operands_congr fun u hu =>
        (hsame (h.above_operand hreach habove hdef hu).2).symm)

/-- At the entry. -/
theorem holds_entry {args : List (BitVec 64)} {ρ : Regs} (hargs : fn.TakesWords pb 0 args) :
    fn.Holds pb 0 [] (fn.enter 0 args ρ) :=
  h.holds_enter ⟨[0], .start⟩ hargs (fun _ _ hv => absurd hv (not_above_root _))
    fun _ _ _ hv => absurd hv (not_above_root _)

/-- Behind an instruction. -/
theorem holds_step {b : BlockId} {block : Block} (hreach : fn.Reach b)
    (hb : fn.blocks[b]? = some block) {pre post : List Inst} {inst : Inst}
    (hsplit : block.insts = pre ++ inst :: post) {ρ : Regs} (hholds : fn.Holds pb b pre ρ)
    {x : BitVec 64} (hword : inst.result ≠ noValue → IsWordOf pb inst.type x)
    (hx : ∀ y, inst.value? pb (fn.operands inst ρ) = some y → x = y) :
    fn.Holds pb b (pre ++ [inst]) (Function.update ρ inst.result x) := by
  have hmem : inst ∈ block.insts := by
    rw [hsplit]
    exact List.mem_append_right _ List.mem_cons_self
  have hfront : fn.Front b pre := ⟨hreach, fun _ => ⟨block, _, hb, hsplit⟩⟩
  have hfresh := h.not_avail_result hb hsplit
  have hold {v : ValueId} (hv : fn.Avail b pre v) : Function.update ρ inst.result x v = ρ v :=
    Function.update_of_ne (fun he : v = inst.result => hfresh (he ▸ hv)) _ _
  have hsame {v : ValueId} {inst' : Inst} (hv : fn.Avail b pre v) (hdef : fn.DefinedBy v inst') :
      fn.operands inst' (Function.update ρ inst.result x) = fn.operands inst' ρ :=
    Function.operands_congr fun u hu => hold (h.avail_operand hfront hv hdef hu)
  constructor
  · intro v hv
    rcases hv.snoc with hv' | rfl
    · rw [hold hv']
      exact hholds.word v hv'
    · rw [Function.update_self, h.recorded block (List.mem_of_getElem? hb) inst hmem hv.1]
      exact hword hv.1
  · intro v inst' hv hdef y hy
    rcases hv.snoc with hv' | rfl
    · rw [hsame hv' hdef] at hy
      rw [hold hv']
      exact hholds.value v inst' hv' hdef y hy
    · obtain ⟨rfl, -⟩ := h.definedBy_unique hb hmem hdef
      rw [Function.update_self]
      refine hx y ?_
      rw [← hy]
      exact congrArg _ (Function.operands_congr fun u hu =>
        (hold (h.uses b block hreach hb pre inst' post hsplit u hu)).symm)

/-- In the next block. -/
theorem holds_goto {b target : BlockId} {block : Block} (hreach : fn.Reach b)
    (hb : fn.blocks[b]? = some block) {pre : List Inst} {term : Inst}
    (hsplit : block.insts = pre ++ [term]) (hterm : isTerminator term.op = true) {ρ : Regs}
    (hholds : fn.Holds pb b pre ρ) {args : List (BitVec 64)}
    (hexit : fn.exit term ρ = some (.goto target args)) :
    target ∈ fn.successors b ∧ fn.Holds pb target [] (fn.enter target args ρ) := by
  have hmem : term ∈ block.insts := by
    rw [hsplit]
    exact List.mem_append_right _ List.mem_cons_self
  obtain ⟨htarget, targs, rfl, ⟨tblock, htblock, htypes⟩, hsub⟩ :=
    exit_goto (h.typed block (List.mem_of_getElem? hb) term hmem) hexit
  rw [← Function.successors_eq hb hsplit] at htarget
  have hback {v : ValueId} (hne : v ≠ noValue) (hv : Above fn.successors 0 fn.Defs target v) :
      fn.Avail b pre v := h.avail_of_above hb hsplit hterm htarget hne hv
  refine ⟨htarget, h.holds_enter (hreach.goto htarget) ?_ (fun v hne hv => hholds.word v
    (hback hne hv)) fun v inst hne hv => hholds.value v inst (hback hne hv)⟩
  rw [Function.TakesWords, Function.getD_blocks htblock, List.forall₂_map_left_iff]
  have havail : ∀ a ∈ targs, fn.Avail b pre a := fun a ha =>
    h.uses b block hreach hb pre term [] hsplit a (hsub ha)
  refine ((List.forall₂_and_left targs tblock.params).2 ⟨havail, htypes⟩).imp fun a p hap => ?_
  rw [← beq_iff_eq.1 hap.2.2]
  exact hholds.word a hap.1

end Function.Ssa

end

end Mirage
