import Mirage.Mir.Rewrite

/-!
# Four edits

The edits that the peephole pass is made of.

* `edit_const`: an instruction becomes the constant that it gives;
* `edit_alias`: a value that is a copy of another one is replaced by it;
* `edit_param`: a parameter is dropped that no instruction reads, or that gets the same value
  from every jump, which takes its place;
* `edit_dead`: instructions are removed whose results no instruction reads.
-/

namespace Mirage

open Dominators

section

variable {module : Module} {sig : Signature} {fn : Function} {pb : Nat}
  {σ : ValueId → ValueId} {keep : ValueId → Bool}

/-- The function with renamed operands, and without the parameters that are not kept. -/
def Function.renamed (fn : Function) (σ : ValueId → ValueId) (keep : ValueId → Bool) : Function :=
  { fn with blocks := fn.blocks.map fun block =>
      { block with
        params := block.params.filter keep
        insts := block.insts.map fun inst =>
          if isTerminator inst.op then fn.editTerm σ keep inst else mapValueOperands σ inst } }

theorem mapValueOperands_id (inst : Inst) : mapValueOperands id inst = inst := by
  unfold mapValueOperands
  split <;> simp only [id_eq, List.map_id, ite_self]

/-- A terminator whose target keeps its parameters. -/
theorem editTerm_all {term : Inst} (htyped : term.WellTyped module fn sig)
    (hkeep : term.op = .jump → ∀ p ∈ (fn.blocks.getD term.a {}).params, keep p = true) :
    fn.editTerm σ keep term = mapValueOperands σ term := by
  rw [Function.editTerm]
  split
  · rename_i hop
    simp only [Inst.WellTyped, hop] at htyped
    obtain ⟨block, hb, htypes⟩ := htyped
    have hkeep := hkeep hop
    rw [Function.getD_blocks hb] at hkeep ⊢
    rw [keptArgs_of_all htypes.length_eq.symm hkeep]
    simp only [mapValueOperands, hop]
  · rfl

/-- Instructions that are kept, before others. -/
theorem Function.InstsEdit.keep_append {b : BlockId} {init : List Inst}
    (hterm : ∀ inst ∈ init, isTerminator inst.op = false)
    (hkeep : ∀ inst ∈ init, inst.result ≠ noValue → keep inst.result = true)
    {pre rest rest' : List Inst} (hrest : fn.InstsEdit pb σ keep b (pre ++ init) rest rest') :
    fn.InstsEdit pb σ keep b pre (init ++ rest) (init.map (mapValueOperands σ) ++ rest') := by
  induction init generalizing pre with
  | nil =>
    rw [List.append_nil] at hrest
    exact hrest
  | cons inst init ih =>
    rw [List.forall_mem_cons] at hterm hkeep
    rw [List.append_cons] at hrest
    exact .keep hterm.1 hkeep.1 (ih hterm.2 hkeep.2 hrest)

theorem Function.defs_param {b : BlockId} {p : ValueId} (hp : p ∈ (fn.blocks.getD b {}).params) :
    fn.Defs b p := by
  rcases hb : fn.blocks[b]? with _ | block
  · rw [List.getD_eq_getElem?_getD, hb] at hp
    cases hp
  · rw [Function.getD_blocks hb] at hp
    exact ⟨block, hb, List.mem_append_left _ hp⟩

/-- What is available is defined in the block or above it. -/
theorem Function.Front.defs_or_above {b : BlockId} {pre : List Inst}
    (hfront : fn.Front b pre) {v : ValueId}
    (hv : fn.Avail b pre v) : fn.Defs b v ∨ Above fn.successors 0 fn.Defs b v := by
  rcases hv.2 with hparam | hresult | habove
  · exact .inl (Function.defs_param hparam)
  · obtain ⟨inst, hinst, rfl⟩ := List.mem_map.1 hresult
    obtain ⟨block, post, hb, hsplit⟩ := hfront.exists_block (List.ne_nil_of_mem hinst)
    refine .inl ⟨block, hb, Block.result_mem_defined ?_ hv.1⟩
    rw [hsplit]
    exact List.mem_append_left _ hinst
  · exact .inr habove

/-- A block without its dead instructions. -/
theorem Function.InstsEdit.filter {b : BlockId} {dead : Inst → Bool} {last : Inst}
    (hlast : isTerminator last.op = true) (hstays : dead last = false)
    (hedit : fn.editTerm id keep last = last) {init : List Inst}
    (hterm : ∀ inst ∈ init, isTerminator inst.op = false)
    (hdead : ∀ inst ∈ init, dead inst = true →
      isPure inst.op = true ∧ keep inst.result = false)
    (hkeep : ∀ inst ∈ init, dead inst = false → inst.result ≠ noValue →
      keep inst.result = true) {pre : List Inst} :
    fn.InstsEdit pb id keep b pre (init ++ [last])
      ((init ++ [last]).filter fun inst => !dead inst) := by
  induction init generalizing pre with
  | nil =>
    rw [List.nil_append, List.filter_cons_of_pos (by simpa using hstays), List.filter_nil]
    have hrefl : fn.InstsEdit pb id keep b pre [last] [fn.editTerm id keep last] := .last hlast
    rwa [hedit] at hrefl
  | cons inst init ih =>
    rw [List.forall_mem_cons] at hterm hdead hkeep
    have hrest : fn.InstsEdit pb id keep b (pre ++ [inst]) (init ++ [last])
        ((init ++ [last]).filter fun inst => !dead inst) := ih hterm.2 hdead.2 hkeep.2
    rw [List.cons_append]
    by_cases hd : dead inst = true
    · rw [List.filter_cons_of_neg (by simpa using hd)]
      exact .drop (hdead.1 hd).1 (hdead.1 hd).2 hrest
    · rw [List.filter_cons_of_pos (by simpa using hd)]
      have hstep := Function.InstsEdit.keep hterm.1 (hkeep.1 (by simpa using hd)) hrest
      rwa [mapValueOperands_id] at hstep

namespace Function.Ssa

variable (h : fn.Ssa module sig)

include h

theorem closed_at {b : BlockId} {block : Block} (hb : fn.blocks[b]? = some block) :
    ∃ init last, block.insts = init ++ [last] ∧ isTerminator last.op = true ∧
      ∀ inst ∈ init, isTerminator inst.op = false := h.closed block (List.mem_of_getElem? hb)

/-- An edit that keeps all instructions. -/
theorem edit_renamed (hroot : ∀ p ∈ (fn.blocks.getD 0 {}).params, keep p = true)
    (hkeep : ∀ block ∈ fn.blocks, ∀ inst ∈ block.insts, inst.result ≠ noValue →
      keep inst.result = true)
    (hstands : ∀ block ∈ fn.blocks, ∀ inst ∈ block.insts, ∀ v ∈ valueOperands inst,
      StandsFor fn fn v (σ v))
    (havail : ∀ b pre, fn.Front b pre → ∀ v, fn.Avail b pre v → fn.Avail b pre (σ v))
    (hσ : ∀ block ∈ fn.blocks, ∀ inst ∈ block.insts, ∀ v ∈ valueOperands inst,
      keep (σ v) = true)
    (hsame : ∀ b pre ρ, fn.Seen pb b pre ρ → ∀ v, fn.Avail b pre v → ρ (σ v) = ρ v) :
    fn.Edit pb σ keep (fn.renamed σ keep) where
  length := List.length_map _
  slots := rfl
  values := rfl
  types := fun _ => rfl
  root := hroot
  blocks := by
    intro b block hb
    refine ⟨_, by rw [Function.renamed, List.getElem?_map, hb]; rfl, rfl, ?_⟩
    obtain ⟨init, last, hsplit, hlast, hinit⟩ := h.closed_at hb
    have hmap : block.insts.map (fun inst => if isTerminator inst.op then
        fn.editTerm σ keep inst else mapValueOperands σ inst) =
        init.map (mapValueOperands σ) ++ [fn.editTerm σ keep last] := by
      rw [hsplit, List.map_append, List.map_singleton, if_pos hlast]
      refine congrArg (· ++ _) (List.map_congr_left fun inst hinst => ?_)
      rw [if_neg (by simp [hinit inst hinst])]
    dsimp only
    rw [hmap, hsplit]
    refine .keep_append hinit (fun inst hinst => ?_) (.last hlast)
    refine hkeep block (List.mem_of_getElem? hb) inst ?_
    rw [hsplit]
    exact List.mem_append_left _ hinst
  stands := hstands
  avail := by
    intro b block hreach hb pre inst post hsplit v hv
    have hmem : inst ∈ block.insts := by
      rw [hsplit]
      exact List.mem_append_right _ List.mem_cons_self
    exact ⟨havail b pre ⟨hreach, fun _ => ⟨block, _, hb, hsplit⟩⟩ v
      (h.uses b block hreach hb pre inst post hsplit v hv),
      hσ block (List.mem_of_getElem? hb) inst hmem v hv⟩
  same := hsame

/-! ### Constants -/

/-- The last instructions of a block, left as they are. -/
theorem instsEdit_refl {b : BlockId} {block : Block} (hb : fn.blocks[b]? = some block)
    {front rest : List Inst} (hsplit : block.insts = front ++ rest) (hne : rest ≠ [])
    (pre : List Inst) : fn.InstsEdit pb id (fun _ => true) b pre rest rest := by
  obtain ⟨init, last, hclosed, hlast, hinit⟩ := h.closed_at hb
  obtain ⟨init', last', rfl⟩ := (List.eq_nil_or_concat' rest).resolve_left hne
  rw [hclosed, ← List.append_assoc] at hsplit
  obtain ⟨rfl, hlast'⟩ := List.append_inj' hsplit rfl
  obtain rfl := List.singleton_inj.1 hlast'
  have hmem : last ∈ block.insts := by
    rw [hclosed]
    exact List.mem_append_right _ List.mem_cons_self
  have hterm : fn.editTerm id (fun _ => true) last = last := by
    rw [editTerm_all (h.typed block (List.mem_of_getElem? hb) last hmem) fun _ _ _ => rfl,
      mapValueOperands_id]
  have hmap : init'.map (mapValueOperands id) = init' := by
    rw [List.map_congr_left fun inst _ => mapValueOperands_id inst, List.map_id']
  have hedit : fn.InstsEdit pb id (fun _ => true) b pre (init' ++ [last])
      (init'.map (mapValueOperands id) ++ [fn.editTerm id (fun _ => true) last]) :=
    .keep_append (fun inst hinst => hinit inst (List.mem_append_right _ hinst))
      (fun _ _ _ => rfl) (.last hlast)
  rwa [hmap, hterm] at hedit

/-- An instruction becomes the constant that it gives. -/
theorem edit_const {b : BlockId} {block : Block} (hb : fn.blocks[b]? = some block)
    {pre post : List Inst} {inst inst' : Inst} (hsplit : block.insts = pre ++ inst :: post)
    (hdefines : definesValue inst.op = true) (hop : inst'.op = .constInt)
    (htype : inst'.type = inst.type) (hresult : inst'.result = inst.result)
    (hint : isInteger inst.type = true)
    (hvalue : ∀ ρ, fn.Seen pb b pre ρ →
      inst.value? pb (fn.operands inst ρ) = some (wordOf pb inst.type inst'.imm)) :
    fn.Edit pb id (fun _ => true)
      { fn with blocks := fn.blocks.set b { block with insts := pre ++ inst' :: post } } where
  length := List.length_set
  slots := rfl
  values := rfl
  types := fun _ => rfl
  root := fun _ _ => rfl
  blocks := by
    intro c block' hc
    have hfilter : block'.params.filter (fun _ => true) = block'.params :=
      List.filter_eq_self.2 fun _ _ => rfl
    by_cases hcb : c = b
    · subst hcb
      obtain rfl := Option.some.inj (hb.symm.trans hc)
      refine ⟨_, List.getElem?_set_self (List.getElem?_eq_some_iff.1 hb).1, hfilter.symm, ?_⟩
      obtain ⟨init, last, hclosed, hlast, hinit⟩ := h.closed_at hb
      have hpost : post ≠ [] := by
        rintro rfl
        obtain ⟨rfl, hlast'⟩ := List.append_inj' (hsplit.symm.trans hclosed) rfl
        rw [← List.singleton_inj.1 hlast', isTerminator_of_definesValue hdefines] at hlast
        cases hlast
      have hpre : ∀ inst ∈ pre, isTerminator inst.op = false := by
        obtain ⟨post', last', rfl⟩ := (List.eq_nil_or_concat' post).resolve_left hpost
        rw [hclosed, ← List.cons_append, ← List.append_assoc] at hsplit
        obtain ⟨rfl, -⟩ := List.append_inj' hsplit rfl
        exact fun inst hinst => hinit inst (List.mem_append_left _ hinst)
      have hmap : pre.map (mapValueOperands id) = pre := by
        rw [List.map_congr_left fun inst _ => mapValueOperands_id inst, List.map_id']
      have hsplit' : block.insts = (pre ++ [inst]) ++ post := by
        rw [hsplit, List.append_assoc, List.singleton_append]
      have hrest : fn.InstsEdit pb id (fun _ => true) c (pre ++ [inst]) post post :=
        h.instsEdit_refl hb hsplit' hpost _
      have hedit : fn.InstsEdit pb id (fun _ => true) c [] (pre ++ inst :: post)
          (pre.map (mapValueOperands id) ++ inst' :: post) :=
        .keep_append hpre (fun _ _ _ => rfl)
          (.const hdefines hop htype hresult hint hvalue hrest)
      rwa [hmap, ← hsplit] at hedit
    · refine ⟨block', ?_, hfilter.symm, ?_⟩
      · dsimp only
        rw [List.getElem?_set_ne (Ne.symm hcb), hc]
      · exact h.instsEdit_refl hc (List.nil_append _).symm (by
          obtain ⟨init, last, hclosed, -⟩ := h.closed_at hc
          rw [hclosed]
          exact List.append_ne_nil_of_right_ne_nil _ (List.cons_ne_nil _ _)) []
  stands := fun _ _ _ _ _ _ => ⟨id, rfl⟩
  avail := fun b block hreach hb pre inst post hsplit v hv =>
    ⟨h.uses b block hreach hb pre inst post hsplit v hv, rfl⟩
  same := fun _ _ _ _ _ _ => rfl

/-! ### Copies -/

/-- A value that is a copy of an operand of its instruction is replaced by it. -/
theorem edit_alias {r s : ValueId} {inst : Inst} (hdef : fn.DefinedBy r inst)
    (hs : s ∈ valueOperands inst) (hstands : StandsFor fn fn r s)
    (hvalue : ∀ b pre ρ, fn.Holds pb b pre ρ → (∀ u ∈ valueOperands inst, fn.Avail b pre u) →
      inst.value? pb (fn.operands inst ρ) = some (ρ s)) :
    fn.Edit pb (Function.update id r s) (fun _ => true)
      (fn.renamed (Function.update id r s) fun _ => true) := by
  refine h.edit_renamed (fun _ _ => rfl) (fun _ _ _ _ _ => rfl) ?_ ?_ (fun _ _ _ _ _ _ => rfl) ?_
  · intro block hblock i hi v hv
    by_cases hvr : v = r
    · rw [hvr, Function.update_self]
      exact hstands
    · rw [Function.update_of_ne hvr]
      exact ⟨id, rfl⟩
  · intro b pre hfront v hv
    by_cases hvr : v = r
    · rw [hvr, Function.update_self]
      exact h.avail_operand hfront (hvr ▸ hv) hdef hs
    · rwa [Function.update_of_ne hvr]
  · intro b pre ρ hseen v hv
    by_cases hvr : v = r
    · subst hvr
      obtain ⟨hfront, hholds⟩ := hseen.front h
      rw [Function.update_self]
      refine (hholds.value v inst hv hdef (ρ s) ?_).symm
      exact hvalue b pre ρ hholds fun u hu => h.avail_operand hfront hv hdef hu
    · rw [Function.update_of_ne hvr, id_eq]

/-! ### Parameters -/

/-- A parameter is not the result of an instruction. -/
theorem param_ne_result {b : BlockId} {p : ValueId} (hp : p ∈ (fn.blocks.getD b {}).params)
    (hne : p ≠ noValue) {block : Block} (hblock : block ∈ fn.blocks) {inst : Inst}
    (hinst : inst ∈ block.insts) : inst.result ≠ p := fun heq =>
  h.not_definedBy_param hp ⟨heq, hne, block, hblock, hinst⟩

theorem param_ne_noValue {b : BlockId} {p : ValueId} (hp : p ∈ (fn.blocks.getD b {}).params) :
    p ≠ noValue := by
  rcases hb : fn.blocks[b]? with _ | block
  · rw [List.getD_eq_getElem?_getD, hb] at hp
    cases hp
  · rw [Function.getD_blocks hb] at hp
    exact h.named block (List.mem_of_getElem? hb) p hp

section

variable {b : BlockId} {p : ValueId} (hp : p ∈ (fn.blocks.getD b {}).params)

include hp

theorem param_not_root (hroot : b ≠ 0) : ∀ q ∈ (fn.blocks.getD 0 {}).params, q ≠ p := by
  rintro q hq rfl
  exact hroot (h.once_defs q b 0 (Function.defs_param hp) (Function.defs_param hq))

/-- A parameter that no instruction reads is dropped. -/
theorem edit_unused_param (hroot : b ≠ 0)
    (hunused : ∀ block ∈ fn.blocks, ∀ inst ∈ block.insts, p ∉ valueOperands inst) :
    fn.Edit pb id (· ≠ p) (fn.renamed id (· ≠ p)) := by
  refine h.edit_renamed (fun q hq => decide_eq_true (h.param_not_root hp hroot q hq)) ?_
    (fun _ _ _ _ _ _ => ⟨id, rfl⟩) (fun _ _ _ _ hv => hv) ?_ fun _ _ _ _ _ _ => rfl
  · exact fun block hblock inst hinst _ =>
      decide_eq_true (h.param_ne_result hp (h.param_ne_noValue hp) hblock hinst)
  · exact fun block hblock inst hinst v hv =>
      decide_eq_true fun heq => hunused block hblock inst hinst (heq ▸ hv)

/-- Only a jump goes to a block with parameters. -/
theorem jump_of_mem_successors {c : BlockId} {block : Block} (hc : fn.blocks[c]? = some block)
    {init : List Inst} {term : Inst} (hsplit : block.insts = init ++ [term])
    (hsucc : b ∈ fn.successors c) :
    term.op = .jump ∧ term.a = b ∧ ∃ a, (p, a) ∈ (fn.blocks.getD b {}).params.zip term.args := by
  have hmem : term ∈ block.insts := by
    rw [hsplit]
    exact List.mem_append_right _ List.mem_cons_self
  have htyped := h.typed block (List.mem_of_getElem? hc) term hmem
  have hnil : ¬ fn.JumpsTo b [] := by
    rintro ⟨block', hb', htypes⟩
    rw [Function.getD_blocks hb'] at hp
    obtain ⟨a, hzip, -⟩ := exists_arg htypes hp
    rw [List.zip_nil_right] at hzip
    cases hzip
  rw [Function.successors_eq hc hsplit] at hsucc
  cases hop : term.op with
  | jump =>
    simp only [Inst.WellTyped, Inst.successors, hop, List.mem_singleton] at htyped hsucc
    subst hsucc
    obtain ⟨block', hb', htypes⟩ := htyped
    rw [Function.getD_blocks hb'] at hp ⊢
    obtain ⟨a, hzip, -⟩ := exists_arg htypes hp
    exact ⟨rfl, rfl, a, hzip⟩
  | branch =>
    simp only [Inst.WellTyped, Inst.successors, hop, List.mem_cons, List.not_mem_nil,
      or_false] at htyped hsucc
    rcases hsucc with rfl | rfl
    · exact absurd htyped.2.1 hnil
    · exact absurd htyped.2.2 hnil
  | switch =>
    simp only [Inst.WellTyped, Inst.successors, hop, List.mem_cons] at htyped hsucc
    rcases hsucc with rfl | hsucc
    · exact absurd htyped.2.1 hnil
    · exact absurd (htyped.2.2.2 b hsucc) hnil
  | _ =>
    simp only [Inst.successors, hop, List.not_mem_nil] at hsucc

section

variable {u : ValueId}
  (hedges : ∀ block ∈ fn.blocks, ∀ term ∈ block.insts, term.op = .jump → term.a = b → ∀ a,
    (p, a) ∈ (fn.blocks.getD b {}).params.zip term.args → a = u ∨ a = p)

include hedges

/-- What every jump passes for a parameter, but for the parameter itself, is above its block. -/
theorem above_of_edges (hroot : b ≠ 0) (hreach : fn.Reach b) :
    Above fn.successors 0 fn.Defs b u := by
  refine Dominators.above_of_edges h.once_defs hroot hreach fun c hc hsucc hdom => ?_
  rcases hblock : fn.blocks[c]? with _ | block
  · rw [Function.successors, List.getD_eq_getElem?_getD, hblock] at hsucc
    cases hsucc
  obtain ⟨init, term, hsplit, hterm, -⟩ := h.closed_at hblock
  obtain ⟨hop, ha, a, hzip⟩ := h.jump_of_mem_successors hp hblock hsplit hsucc
  have hmem : term ∈ block.insts := by
    rw [hsplit]
    exact List.mem_append_right _ List.mem_cons_self
  have huse : a ∈ valueOperands term := by
    rw [valueOperands.eq_def, hop]
    exact (List.of_mem_zip hzip).2
  have hfront : fn.Front c init := ⟨hc, fun _ => ⟨block, _, hblock, hsplit⟩⟩
  have hdefs := hfront.defs_or_above (h.uses c block hc hblock init term [] hsplit a huse)
  rcases hedges block (List.mem_of_getElem? hblock) term hmem hop ha a hzip with rfl | rfl
  · exact hdefs
  · -- the parameter is available only where its block dominates
    refine absurd ?_ hdom
    rcases hdefs with hdefs | ⟨d, -, hdom', hdefs⟩
    · rw [h.once_defs a b c (Function.defs_param hp) hdefs]
      exact Dominates.refl c
    · rwa [h.once_defs a b d (Function.defs_param hp) hdefs]

/-- So it is available wherever the parameter is. -/
theorem above_of_param (hroot : b ≠ 0) {c : BlockId} (hreach : fn.Reach c)
    (hv : fn.Defs c p ∨ Above fn.successors 0 fn.Defs c p) :
    Above fn.successors 0 fn.Defs c u := by
  rcases hv with hv | ⟨d, hdc, hdom, hd⟩
  · obtain rfl := h.once_defs p b c (Function.defs_param hp) hv
    exact h.above_of_edges hp hedges hroot hreach
  · obtain rfl := h.once_defs p b d (Function.defs_param hp) hd
    exact above_of_above hreach hdc hdom
      (.inr (h.above_of_edges hp hedges hroot (hdom.reachable hreach)))

/-- And has the same word. -/
theorem same_of_param (hroot : b ≠ 0) (hu : u ≠ noValue) {c : BlockId} {pre : List Inst}
    {ρ : Regs} (hseen : fn.Seen pb c pre ρ) (hv : fn.Avail c pre p) : ρ u = ρ p := by
  have havail {c : BlockId} {pre : List Inst} (hfront : fn.Front c pre) (hv : fn.Avail c pre p) :
      fn.Avail c pre u := ⟨hu, .inr (.inr
        (h.above_of_param hp hedges hroot hfront.reach (hfront.defs_or_above hv)))⟩
  induction hseen with
  | entry hargs =>
    rcases hv.2 with hparam | hresult | habove
    · exact absurd rfl (h.param_not_root hp hroot p hparam)
    · cases hresult
    · exact absurd habove (not_above_root _)
  | @step c block pre inst post ρ x hseen hb hsplit _ _ ih =>
    have hmem : inst ∈ block.insts := by
      rw [hsplit]
      exact List.mem_append_right _ List.mem_cons_self
    have hresult := h.param_ne_result hp hv.1 (List.mem_of_getElem? hb) hmem
    have hv := hv.snoc.resolve_right (Ne.symm hresult)
    have hfresh : u ≠ inst.result := fun he =>
      h.not_avail_result hb hsplit (he ▸ havail (hseen.front h).1 hv)
    rw [Function.update_of_ne hfresh, Function.update_of_ne (Ne.symm hresult)]
    exact ih hv
  | @goto c block pre term ρ target args hseen hb hsplit hterm hexit ih =>
    have hmem : term ∈ block.insts := by
      rw [hsplit]
      exact List.mem_append_right _ List.mem_cons_self
    have hblock := List.mem_of_getElem? hb
    obtain ⟨htarget, -⟩ := exit_goto (h.typed block hblock term hmem) hexit
    rw [← Function.successors_eq hb hsplit] at htarget
    have hreach := (hseen.front h).1.reach
    have hfront : fn.Front target [] := ⟨hreach.goto htarget, fun hne => absurd rfl hne⟩
    have habove := h.above_of_param hp hedges hroot hfront.reach (hfront.defs_or_above hv)
    -- a value from above is none of the parameters that the jump binds
    have hsame : fn.enter target args ρ u = ρ u :=
      bindParams_of_not_mem fun hmem => h.not_above_param hmem habove
    rw [hsame]
    rcases hv.2 with hparam | hresult | habove'
    · obtain rfl := h.once_defs p target b (Function.defs_param hparam) (Function.defs_param hp)
      obtain ⟨hop, ha, a, hzip⟩ := h.jump_of_mem_successors hp hb hsplit htarget
      simp only [Function.exit, hop] at hexit
      obtain ⟨-, rfl⟩ := BlockExit.goto.inj (Option.some.inj hexit)
      -- the jump passes the value itself, or the parameter
      have hzip' : (p, ρ a) ∈ (fn.blocks.getD target {}).params.zip (term.args.map ρ) := by
        rw [List.zip_map_right]
        exact List.mem_map_of_mem (f := Prod.map id ρ) hzip
      rw [Function.enter, bindParams_of_mem (h.params_nodup target) hzip']
      rcases hedges block hblock term hmem hop ha a hzip with rfl | rfl
      · rfl
      · refine ih (h.uses c block hreach hb pre term [] hsplit a ?_)
        rw [valueOperands.eq_def, hop]
        exact (List.of_mem_zip hzip).2
    · cases hresult
    · have hnot : fn.enter target args ρ p = ρ p :=
        bindParams_of_not_mem fun hmem => h.not_above_param hmem habove'
      rw [hnot]
      exact ih (h.avail_of_above hb hsplit hterm htarget hv.1 habove')

/-- A parameter that gets one value from every jump is replaced by it. -/
theorem edit_param (hroot : b ≠ 0) (hne : u ≠ p) (hstands : StandsFor fn fn p u)
    (hu : u ≠ noValue) :
    fn.Edit pb (Function.update id p u) (· ≠ p)
      (fn.renamed (Function.update id p u) (· ≠ p)) := by
  refine h.edit_renamed (fun q hq => decide_eq_true (h.param_not_root hp hroot q hq)) ?_ ?_ ?_ ?_ ?_
  · exact fun block hblock inst hinst _ =>
      decide_eq_true (h.param_ne_result hp (h.param_ne_noValue hp) hblock hinst)
  · intro block hblock i hi v hv
    by_cases hvp : v = p
    · rw [hvp, Function.update_self]
      exact hstands
    · rw [Function.update_of_ne hvp]
      exact ⟨id, rfl⟩
  · intro c pre hfront v hv
    by_cases hvp : v = p
    · subst hvp
      rw [Function.update_self]
      exact ⟨hu, .inr (.inr
        (h.above_of_param hp hedges hroot hfront.reach (hfront.defs_or_above hv)))⟩
    · rwa [Function.update_of_ne hvp]
  · intro block hblock inst hinst v hv
    by_cases hvp : v = p
    · rw [hvp, Function.update_self]
      exact decide_eq_true hne
    · rw [Function.update_of_ne hvp]
      exact decide_eq_true hvp
  · intro c pre ρ hseen v hv
    by_cases hvp : v = p
    · subst hvp
      rw [Function.update_self]
      exact h.same_of_param hp hedges hroot hu hseen hv
    · rw [Function.update_of_ne hvp, id_eq]

end

end

/-! ### Dead values -/

/-- Instructions are removed whose results no instruction reads. -/
theorem edit_dead {dead : Inst → Bool}
    (hdead : ∀ block ∈ fn.blocks, ∀ inst ∈ block.insts, dead inst = true →
      isPure inst.op = true ∧ inst.result ≠ noValue ∧
        ∀ block' ∈ fn.blocks, ∀ inst' ∈ block'.insts, inst.result ∉ valueOperands inst') :
    fn.Edit pb id
      (fun v => decide (∀ block ∈ fn.blocks, ∀ inst ∈ block.insts, dead inst = true →
        inst.result ≠ v))
      { fn with blocks := fn.blocks.map fun block =>
          { block with insts := block.insts.filter fun inst => !dead inst } } := by
  have hparam {b : BlockId} {q : ValueId} (hq : q ∈ (fn.blocks.getD b {}).params) :
      decide (∀ block ∈ fn.blocks, ∀ inst ∈ block.insts, dead inst = true →
        inst.result ≠ q) = true :=
    decide_eq_true fun _ hblock _ hinst _ =>
      h.param_ne_result hq (h.param_ne_noValue hq) hblock hinst
  refine ⟨List.length_map _, rfl, rfl, fun _ => rfl, fun q hq => hparam hq, ?_,
    fun _ _ _ _ _ _ => ⟨id, rfl⟩, ?_, fun _ _ _ _ _ _ => rfl⟩
  · intro b block hb
    have hblock := List.mem_of_getElem? hb
    refine ⟨_, by rw [List.getElem?_map, hb]; rfl, ?_, ?_⟩
    · refine (List.filter_eq_self.2 fun q hq => hparam (b := b) ?_).symm
      rwa [Function.getD_blocks hb]
    · obtain ⟨init, last, hsplit, hlast, hinit⟩ := h.closed_at hb
      have hmem : last ∈ block.insts := by
        rw [hsplit]
        exact List.mem_append_right _ List.mem_cons_self
      have hsub : ∀ inst ∈ init, inst ∈ block.insts := fun inst hinst => by
        rw [hsplit]
        exact List.mem_append_left _ hinst
      dsimp only
      rw [hsplit]
      refine .filter hlast ?_ ?_ hinit (fun inst hinst hd => ⟨(hdead block hblock inst
        (hsub inst hinst) hd).1, ?_⟩) fun inst hinst hd hne => ?_
      · by_contra hd
        have hpure := (hdead block hblock last hmem (by simpa using hd)).1
        rw [isPure, Bool.and_eq_true, Bool.and_eq_true] at hpure
        rw [isTerminator_of_definesValue hpure.1.1] at hlast
        cases hlast
      · rw [editTerm_all (h.typed block hblock last hmem) fun _ q hq => hparam hq,
          mapValueOperands_id]
      · exact decide_eq_false fun hall => hall block hblock inst (hsub inst hinst) hd rfl
      · refine decide_eq_true fun block' hblock' inst' hinst' hd' heq => ?_
        obtain ⟨rfl, -⟩ := h.definedBy_unique hb (hsub inst hinst)
          ⟨heq, hne, block', hblock', hinst'⟩
        rw [hd] at hd'
        cases hd'
  · intro b block hreach hb pre inst post hsplit v hv
    have hmem : inst ∈ block.insts := by
      rw [hsplit]
      exact List.mem_append_right _ List.mem_cons_self
    refine ⟨h.uses b block hreach hb pre inst post hsplit v hv, decide_eq_true ?_⟩
    rintro block' hblock' inst' hinst' hd rfl
    exact (hdead block' hblock' inst' hinst' hd).2.2 block (List.mem_of_getElem? hb) inst hmem hv

end Function.Ssa

end

end Mirage
