import Mirage.Mir.Ssa

/-!
# Edits

What the passes do to a function, in general. An *edit* renames the operands of the instructions
(`σ`), turns instructions into constants, and drops the definitions of values that are not kept:
instructions, and parameters with their columns of arguments. It is right when, whenever a value
is available, the value that it is renamed to is, and has the same word.

* `Edit.ssa`: an edited function is in SSA form, and well typed;
* `Edit.run`: it does what the function did, where that did not go wrong.
-/

namespace Mirage

open Dominators

/-! ## Renamed operands -/

section

variable {module : Module} {sig : Signature} {fn fn' : Function} {σ : ValueId → ValueId}

theorem Function.Has.ne {v : ValueId} {kind : Ty → Bool} (h : fn.Has v kind) : v ≠ noValue := by
  have hok := h.1
  rw [Verifier.valueOk, Bool.and_eq_true, bne_iff_ne] at hok
  exact hok.1

/-- The value can be in the place of the other one. -/
structure StandsFor (fn fn' : Function) (v v' : ValueId) : Prop where
  ok : Verifier.valueOk fn v = true → Verifier.valueOk fn' v' = true
  type : fn'.valueType v' = fn.valueType v

theorem StandsFor.has {v v' : ValueId} (h : StandsFor fn fn' v v') {kind : Ty → Bool}
    (hv : fn.Has v kind) : fn'.Has v' kind := ⟨h.ok hv.1, by rw [h.type]; exact hv.2⟩

theorem TakesArgs.map {args : List Nat} {types : List Ty} (h : fn.TakesArgs args types)
    (hσ : ∀ v ∈ args, StandsFor fn fn' v (σ v)) : fn'.TakesArgs (args.map σ) types := by
  induction args generalizing types with
  | nil => cases types <;> trivial
  | cons arg args ih =>
    obtain ⟨hσ, hrest⟩ := List.forall_mem_cons.1 hσ
    cases types with
    | nil => exact ⟨hσ.has h.1, ih h.2 hrest⟩
    | cons type types => exact ⟨hσ.has h.1, ih h.2 hrest⟩

/-- The operands of an arithmetic instruction, in their fields. -/
theorem fields_of_pair {inst : Inst}
    (hops : valueOperands inst = if inst.b ≠ noValue then [inst.a, inst.b] else [inst.a])
    (hmap : mapValueOperands σ inst = if inst.b ≠ noValue then
      { inst with a := σ inst.a, b := σ inst.b } else { inst with a := σ inst.a })
    (hσ : ∀ v ∈ valueOperands inst, StandsFor fn fn' v (σ v)) :
    (mapValueOperands σ inst).a = σ inst.a ∧ StandsFor fn fn' inst.a (σ inst.a) ∧
      (inst.b ≠ noValue →
        (mapValueOperands σ inst).b = σ inst.b ∧ StandsFor fn fn' inst.b (σ inst.b)) := by
  rw [hops] at hσ
  rw [hmap]
  by_cases hb : inst.b ≠ noValue
  · rw [if_pos hb] at hσ ⊢
    exact ⟨rfl, hσ _ List.mem_cons_self, fun _ =>
      ⟨rfl, hσ _ (List.mem_cons_of_mem _ List.mem_cons_self)⟩⟩
  · rw [if_neg hb] at hσ ⊢
    exact ⟨rfl, hσ _ List.mem_cons_self, fun h => absurd h hb⟩

/-- Renamed operands of the same types leave an instruction well typed. -/
theorem Inst.WellTyped.map {inst : Inst} (h : inst.WellTyped module fn sig)
    (hjump : inst.op ≠ .jump) (hσ : ∀ v ∈ valueOperands inst, StandsFor fn fn' v (σ v))
    (hslots : fn'.slots.length = fn.slots.length)
    (hempty : ∀ target, fn.JumpsTo target [] → fn'.JumpsTo target []) :
    (mapValueOperands σ inst).WellTyped module fn' sig := by
  unfold Inst.WellTyped at h ⊢
  rw [mapValueOperands_op, mapValueOperands_type]
  cases hop : inst.op with
  | jump => exact absurd hop hjump
  | add | sub | mul | sdiv | udiv | srem | urem | and | or | xor | shl | lshr | ashr | fadd | fsub
  | fmul | fdiv | frem =>
    simp only [hop] at h ⊢
    obtain ⟨ha, hσa, hpair⟩ := fields_of_pair (by simp only [valueOperands, hop])
      (by simp only [mapValueOperands, hop]) hσ
    obtain ⟨hb, hσb⟩ := hpair h.2.1.ne
    rw [ha, hb]
    exact ⟨hσa.has h.1, hσb.has h.2.1, h.2.2⟩
  | icmpEq | icmpNe | icmpSlt | icmpSle | icmpSgt | icmpSge | icmpUlt | icmpUle | icmpUgt
  | icmpUge | fcmpOeq | fcmpOne | fcmpOlt | fcmpOle | fcmpOgt | fcmpOge =>
    simp only [hop] at h ⊢
    obtain ⟨ha, hσa, hpair⟩ := fields_of_pair (by simp only [valueOperands, hop])
      (by simp only [mapValueOperands, hop]) hσ
    obtain ⟨hb, hσb⟩ := hpair h.2.1.ne
    rw [ha, hb, hσa.type]
    exact ⟨hσa.has h.1, hσb.has h.2.1, h.2.2⟩
  | not | neg | fneg =>
    simp only [hop] at h ⊢
    obtain ⟨ha, hσa, -⟩ := fields_of_pair (by simp only [valueOperands, hop])
      (by simp only [mapValueOperands, hop]) hσ
    rw [ha]
    exact ⟨hσa.has h.1, h.2⟩
  | fptrunc | fpext | fptosi | fptoui | sitofp | uitofp | ptrToInt | intToPtr =>
    simp only [hop, Function.Converts] at h ⊢
    obtain ⟨ha, hσa, -⟩ := fields_of_pair (by simp only [valueOperands, hop])
      (by simp only [mapValueOperands, hop]) hσ
    rw [ha, mapValueOperands_type]
    exact ⟨hσa.has h.1, h.2⟩
  | trunc | zext | sext | bitcast =>
    simp only [hop, Function.Converts] at h ⊢
    obtain ⟨ha, hσa, -⟩ := fields_of_pair (by simp only [valueOperands, hop])
      (by simp only [mapValueOperands, hop]) hσ
    rw [ha, mapValueOperands_type, hσa.type]
    exact ⟨⟨hσa.has h.1.1, h.1.2⟩, h.2⟩
  | constInt | constFloat | constNull | globalAddr | funcAddr =>
    simp only [hop, mapValueOperands] at h ⊢
    exact h
  | unreachable => trivial
  | slotAddr =>
    simp only [hop, mapValueOperands, hslots] at h ⊢
    exact h
  | stackAlloc | load | ptrAddConst =>
    simp only [hop, mapValueOperands, valueOperands, List.forall_mem_cons] at h hσ ⊢
    exact ⟨hσ.1.has h.1, h.2⟩
  | store =>
    simp only [hop, mapValueOperands, valueOperands, List.forall_mem_cons] at h hσ ⊢
    exact ⟨hσ.1.has h.1, hσ.2.1.has h.2⟩
  | ptrAdd =>
    simp only [hop, mapValueOperands, valueOperands, List.forall_mem_cons] at h hσ ⊢
    exact ⟨hσ.1.has h.1, hσ.2.1.has h.2.1, h.2.2⟩
  | memCopy | memSet =>
    simp only [hop, mapValueOperands, valueOperands, List.forall_mem_cons] at h hσ ⊢
    exact ⟨hσ.1.has h.1, hσ.2.1.has h.2.1, hσ.2.2.1.has h.2.2⟩
  | select =>
    simp only [hop, mapValueOperands, valueOperands, List.forall_mem_cons] at h hσ ⊢
    exact ⟨hσ.1.has h.1, hσ.2.1.has h.2.1, hσ.2.2.1.has h.2.2.1, h.2.2.2⟩
  | asm =>
    simp only [hop, mapValueOperands, valueOperands, List.length_map,
      List.forall_mem_map] at h hσ ⊢
    obtain ⟨block, hblock, hargs, hasm⟩ := h
    exact ⟨block, hblock, fun v hv => (hσ v hv).has (hargs v hv), hasm⟩
  | call =>
    simp only [hop, mapValueOperands, valueOperands, Function.Calls, List.length_map] at h hσ ⊢
    obtain ⟨callee, hcallee, calleeSig, hsig, hlength, hargs, htype⟩ := h
    exact ⟨callee, hcallee, calleeSig, hsig, hlength, TakesArgs.map hargs hσ, htype⟩
  | callIndirect =>
    simp only [hop, mapValueOperands, valueOperands, Function.Calls, List.length_map,
      List.forall_mem_cons] at h hσ ⊢
    obtain ⟨hcallee, targetSig, hsig, hlength, hargs, htype⟩ := h
    exact ⟨hσ.1.has hcallee, targetSig, hsig, hlength, TakesArgs.map hargs hσ.2, htype⟩
  | branch =>
    simp only [hop, mapValueOperands, valueOperands, List.forall_mem_cons] at h hσ ⊢
    exact ⟨hσ.1.has h.1, hempty _ h.2.1, hempty _ h.2.2⟩
  | switch =>
    simp only [hop, mapValueOperands, valueOperands, List.forall_mem_cons] at h hσ ⊢
    exact ⟨hσ.1.has h.1, hempty _ h.2.1, h.2.2.1, fun target ht => hempty _ (h.2.2.2 target ht)⟩
  | ret =>
    simp only [hop, mapValueOperands, valueOperands] at h hσ ⊢
    split_ifs at h ⊢
    · rw [h, List.map_nil]
    · obtain ⟨value, hargs, hvalue⟩ := h
      rw [hargs] at hσ ⊢
      exact ⟨σ value, rfl, (hσ value List.mem_cons_self).has hvalue⟩

/-- The operands of a renamed instruction are renamed ones. -/
theorem valueOperands_map_subset (inst : Inst) :
    valueOperands (mapValueOperands σ inst) ⊆ (valueOperands inst).map σ := by
  unfold valueOperands
  rw [mapValueOperands_op]
  unfold mapValueOperands
  cases inst.op
  all_goals
    dsimp only
    first
      | exact List.Subset.refl _
      | (by_cases hb : inst.b = noValue
         · simp [hb]
         · by_cases hσ : σ inst.b = noValue
           · simp [hb, hσ]
           · simp [hb, hσ])

/-- All of them, when no value is renamed to the absent one. -/
theorem valueOperands_map {inst : Inst} (h : ∀ v ∈ valueOperands inst, σ v ≠ noValue) :
    valueOperands (mapValueOperands σ inst) = (valueOperands inst).map σ := by
  unfold valueOperands at h ⊢
  rw [mapValueOperands_op]
  unfold mapValueOperands
  revert h
  cases inst.op
  all_goals
    dsimp only
    first
      | exact fun _ => rfl
      | (by_cases hb : inst.b = noValue
         · simp [hb]
         · intro h
           have hσ : σ inst.b ≠ noValue := h inst.b (by simp [hb])
           simp [hb, hσ])

/-- Without the names of its values it is the same. -/
theorem shape_map (inst : Inst) : (mapValueOperands σ inst).shape = inst.shape := by
  obtain ⟨op, type, result, a, b, c, imm, args⟩ := inst
  unfold Inst.shape mapValueOperands
  cases op
  all_goals
    first
      | rfl
      | (dsimp only
         rw [List.map_map]
         rfl)
      | (by_cases hb : b = noValue
         · simp [hb]
         · by_cases hσ : σ b = noValue
           · simp [hb, hσ]
           · simp [hb, hσ])

end

/-! ## Edits -/

/-- What is kept of the arguments for parameters. -/
def keptArgs (keep : ValueId → Bool) (params args : List ValueId) : List ValueId :=
  ((params.zip args).filter fun p => keep p.1).map Prod.snd

/-- A terminator with its operands renamed, and without the arguments of parameters that are not
    kept. -/
def Function.editTerm (fn : Function) (σ : ValueId → ValueId) (keep : ValueId → Bool)
    (term : Inst) : Inst :=
  if term.op = .jump then
    { term with args := (keptArgs keep (fn.blocks.getD term.a {}).params term.args).map σ }
  else mapValueOperands σ term

/-- What a run can come by: the block, the instructions of it behind it, the registers. -/
inductive Function.Seen (pb : Nat) (fn : Function) : BlockId → List Inst → Regs → Prop
  | entry {args ρ} (hargs : fn.TakesWords pb 0 args) : Seen pb fn 0 [] (fn.enter 0 args ρ)
  | step {b block pre inst post ρ x} (hseen : Seen pb fn b pre ρ)
      (hb : fn.blocks[b]? = some block) (hsplit : block.insts = pre ++ inst :: post)
      (hword : inst.result ≠ noValue → IsWordOf pb inst.type x)
      (hvalue : ∀ y, inst.value? pb (fn.operands inst ρ) = some y → x = y) :
      Seen pb fn b (pre ++ [inst]) (Function.update ρ inst.result x)
  | goto {b block pre term ρ target args} (hseen : Seen pb fn b pre ρ)
      (hb : fn.blocks[b]? = some block) (hsplit : block.insts = pre ++ [term])
      (hterm : isTerminator term.op = true) (hexit : fn.exit term ρ = some (.goto target args)) :
      Seen pb fn target [] (fn.enter target args ρ)

section

variable (pb : Nat) (fn : Function) (σ : ValueId → ValueId) (keep : ValueId → Bool)

/-- What an edit makes of the instructions of a block behind `pre`. -/
inductive Function.InstsEdit (b : BlockId) : List Inst → List Inst → List Inst → Prop
  | last {pre term} (hterm : isTerminator term.op = true) :
      InstsEdit b pre [term] [fn.editTerm σ keep term]
  | keep {pre inst rest rest'} (hterm : isTerminator inst.op = false)
      (hkeep : inst.result ≠ noValue → keep inst.result = true)
      (hrest : InstsEdit b (pre ++ [inst]) rest rest') :
      InstsEdit b pre (inst :: rest) (mapValueOperands σ inst :: rest')
  | const {pre inst inst' rest rest'} (hdefines : definesValue inst.op = true)
      (hop : inst'.op = .constInt) (htype : inst'.type = inst.type)
      (hresult : inst'.result = inst.result) (hint : isInteger inst.type = true)
      (hvalue : ∀ ρ, fn.Seen pb b pre ρ →
        inst.value? pb (fn.operands inst ρ) = some (wordOf pb inst.type inst'.imm))
      (hrest : InstsEdit b (pre ++ [inst]) rest rest') :
      InstsEdit b pre (inst :: rest) (inst' :: rest')
  | drop {pre inst rest rest'} (hpure : isPure inst.op = true)
      (hkeep : keep inst.result = false) (hrest : InstsEdit b (pre ++ [inst]) rest rest') :
      InstsEdit b pre (inst :: rest) rest'

/-- An edit of a function. -/
structure Function.Edit (fn' : Function) : Prop where
  length : fn'.blocks.length = fn.blocks.length
  slots : fn'.slots.length = fn.slots.length
  values : fn'.values.length = fn.values.length
  types : ∀ v, fn'.valueType v = fn.valueType v
  root : ∀ p ∈ (fn.blocks.getD 0 {}).params, keep p = true
  blocks : ∀ b block, fn.blocks[b]? = some block → ∃ block', fn'.blocks[b]? = some block' ∧
    block'.params = block.params.filter keep ∧
    fn.InstsEdit pb σ keep b [] block.insts block'.insts
  stands : ∀ block ∈ fn.blocks, ∀ inst ∈ block.insts, ∀ v ∈ valueOperands inst,
    StandsFor fn fn v (σ v)
  avail : ∀ b block, fn.Reach b → fn.blocks[b]? = some block → ∀ pre inst post,
    block.insts = pre ++ inst :: post → ∀ v ∈ valueOperands inst,
      fn.Avail b pre (σ v) ∧ keep (σ v) = true
  same : ∀ b pre ρ, fn.Seen pb b pre ρ → ∀ v, fn.Avail b pre v → ρ (σ v) = ρ v

end

/-! ### What can be seen -/

section

variable {module : Module} {sig : Signature} {fn fn' : Function} {pb : Nat}
  {σ : ValueId → ValueId} {keep : ValueId → Bool} {b : BlockId}

/-- What a run comes by is behind the first instructions of a block, and the invariant holds. -/
theorem Function.Seen.front (h : fn.Ssa module sig) {pre : List Inst} {ρ : Regs}
    (hseen : fn.Seen pb b pre ρ) : fn.Front b pre ∧ fn.Holds pb b pre ρ := by
  induction hseen with
  | entry hargs => exact ⟨⟨⟨[0], .start⟩, fun hne => absurd rfl hne⟩, h.holds_entry hargs⟩
  | @step b block pre inst post ρ x _ hb hsplit hword hvalue ih =>
    refine ⟨⟨ih.1.reach, fun _ => ⟨block, post, hb, ?_⟩⟩,
      h.holds_step ih.1.reach hb hsplit ih.2 hword hvalue⟩
    rw [hsplit, List.append_assoc]
    rfl
  | goto _ hb hsplit hterm hexit ih =>
    obtain ⟨htarget, hholds⟩ := h.holds_goto ih.1.reach hb hsplit hterm ih.2 hexit
    exact ⟨⟨ih.1.reach.goto htarget, fun hne => absurd rfl hne⟩, hholds⟩

/-! ### Arguments that are kept -/

theorem zip_keptArgs {params args : List ValueId} (h : params.length = args.length) :
    (params.filter keep).zip (keptArgs keep params args) =
      (params.zip args).filter fun p => keep p.1 := by
  induction params generalizing args with
  | nil => rfl
  | cons p params ih =>
    obtain ⟨a, args, rfl⟩ := List.exists_cons_of_length_eq_add_one h.symm
    have ih := ih (Nat.succ.inj h)
    rw [keptArgs] at ih ⊢
    by_cases hp : keep p = true
    · simp [hp, ih]
    · simp [hp, ih]

theorem length_keptArgs {params args : List ValueId} (h : params.length = args.length) :
    (keptArgs keep params args).length = (params.filter keep).length := by
  have hmap : ((params.zip args).filter (keep ∘ Prod.fst)).map Prod.fst = params.filter keep := by
    rw [← List.filter_map, List.map_fst_zip h.le]
  rw [← hmap, List.length_map]
  exact List.length_map _

theorem keptArgs_subset (params args : List ValueId) : keptArgs keep params args ⊆ args := by
  intro a ha
  obtain ⟨⟨p, a'⟩, hmem, rfl⟩ := List.mem_map.1 ha
  exact (List.of_mem_zip (List.mem_filter.1 hmem).1).2

theorem keptArgs_of_all {params args : List ValueId} (h : params.length = args.length)
    (hkeep : ∀ p ∈ params, keep p = true) : keptArgs keep params args = args := by
  rw [keptArgs, List.filter_eq_self.2 fun p hp => hkeep p.1 (List.of_mem_zip hp).1,
    List.map_snd_zip h.ge]

/-! ### Terminators -/

@[simp] theorem editTerm_op (term : Inst) : (fn.editTerm σ keep term).op = term.op := by
  rw [Function.editTerm]
  split
  · rfl
  · exact mapValueOperands_op σ term

@[simp] theorem editTerm_type (term : Inst) : (fn.editTerm σ keep term).type = term.type := by
  rw [Function.editTerm]
  split
  · rfl
  · exact mapValueOperands_type σ term

@[simp] theorem editTerm_result (term : Inst) :
    (fn.editTerm σ keep term).result = term.result := by
  rw [Function.editTerm]
  split
  · rfl
  · exact mapValueOperands_result σ term

theorem editTerm_successors (term : Inst) :
    (fn.editTerm σ keep term).successors = term.successors := by
  rw [Inst.successors, editTerm_op, Inst.successors, Function.editTerm]
  unfold mapValueOperands
  cases term.op <;> rfl

theorem editTerm_operands (term : Inst) :
    valueOperands (fn.editTerm σ keep term) ⊆ (valueOperands term).map σ := by
  rw [Function.editTerm]
  split
  · rename_i hop
    simp only [valueOperands, hop]
    exact List.map_subset _ (keptArgs_subset _ _)
  · exact valueOperands_map_subset term

/-! ### Instructions -/

/-- What an instruction is in an edited block. -/
inductive InstEdit (fn : Function) (σ : ValueId → ValueId) (keep : ValueId → Bool) :
    Inst → Inst → Prop
  | last {term} (hterm : isTerminator term.op = true) :
      InstEdit fn σ keep term (fn.editTerm σ keep term)
  | keep {inst} (hterm : isTerminator inst.op = false) :
      InstEdit fn σ keep inst (mapValueOperands σ inst)
  | const {inst inst'} (hdefines : definesValue inst.op = true) (hop : inst'.op = .constInt)
      (htype : inst'.type = inst.type) (hresult : inst'.result = inst.result)
      (hint : isInteger inst.type = true) : InstEdit fn σ keep inst inst'

theorem InstEdit.type {inst inst' : Inst} (h : InstEdit fn σ keep inst inst') :
    inst'.type = inst.type := by
  cases h with
  | last => exact editTerm_type inst
  | keep => exact mapValueOperands_type σ inst
  | const _ _ htype => exact htype

theorem InstEdit.result {inst inst' : Inst} (h : InstEdit fn σ keep inst inst') :
    inst'.result = inst.result := by
  cases h with
  | last => exact editTerm_result inst
  | keep => exact mapValueOperands_result σ inst
  | const _ _ _ hresult => exact hresult

theorem InstEdit.operands {inst inst' : Inst} (h : InstEdit fn σ keep inst inst') :
    valueOperands inst' ⊆ (valueOperands inst).map σ := by
  cases h with
  | last => exact editTerm_operands inst
  | keep => exact valueOperands_map_subset inst
  | const _ hop =>
    rw [valueOperands.eq_def, hop]
    exact List.nil_subset _

/-- It has a result when it should. -/
theorem InstEdit.results {inst inst' : Inst} (h : InstEdit fn σ keep inst inst')
    (hresult : inst.result ≠ noValue ↔ definesValue inst.op = true ∧ inst.type ≠ .void) :
    inst'.result ≠ noValue ↔ definesValue inst'.op = true ∧ inst'.type ≠ .void := by
  rw [h.result, h.type, hresult]
  cases h with
  | last => rw [editTerm_op]
  | keep => rw [mapValueOperands_op]
  | const hdefines hop =>
    rw [hop, hdefines]
    exact Iff.rfl

theorem isTerminator_of_definesValue {op : Op} (h : definesValue op = true) :
    isTerminator op = false := by
  by_contra hterm
  rw [definesValue, if_pos (by simpa using hterm)] at h
  cases h

/-- Where an instruction of an edited block comes from, and what is kept before it. -/
theorem Function.InstsEdit.split {pre insts insts' : List Inst}
    (h : fn.InstsEdit pb σ keep b pre insts insts') {p' q' : List Inst} {inst' : Inst}
    (hsplit : insts' = p' ++ inst' :: q') :
    ∃ p inst q, insts = p ++ inst :: q ∧ InstEdit fn σ keep inst inst' ∧
      ∀ v ∈ p.map Inst.result, v ≠ noValue → keep v = true → v ∈ p'.map Inst.result := by
  -- behind an instruction that is kept with its result
  have hcons {i i' : Inst} {rest : List Inst} {r' : List Inst} (hresult : i'.result = i.result)
      (hrest : ∃ p inst q, rest = p ++ inst :: q ∧ InstEdit fn σ keep inst inst' ∧
        ∀ v ∈ p.map Inst.result, v ≠ noValue → keep v = true → v ∈ r'.map Inst.result) :
      ∃ p inst q, i :: rest = p ++ inst :: q ∧ InstEdit fn σ keep inst inst' ∧
        ∀ v ∈ p.map Inst.result, v ≠ noValue → keep v = true →
          v ∈ (i' :: r').map Inst.result := by
    obtain ⟨p, inst, q, rfl, hedit, hp⟩ := hrest
    refine ⟨i :: p, inst, q, rfl, hedit, fun v hv hne hkeep => ?_⟩
    rcases List.mem_cons.1 hv with rfl | hv
    · rw [List.map_cons, hresult]
      exact List.mem_cons_self
    · exact List.mem_cons_of_mem _ (hp v hv hne hkeep)
  have hnil {i : Inst} {rest : List Inst} (hedit : InstEdit fn σ keep i inst') :
      ∃ p inst q, i :: rest = p ++ inst :: q ∧ InstEdit fn σ keep inst inst' ∧
        ∀ v ∈ p.map Inst.result, v ≠ noValue → keep v = true →
          v ∈ ([] : List Inst).map Inst.result :=
    ⟨[], i, rest, rfl, hedit, fun v hv => absurd hv List.not_mem_nil⟩
  induction h generalizing p' with
  | @last pre term hterm =>
    rcases p' with _ | ⟨x, p'⟩
    · obtain ⟨rfl, -⟩ := List.cons.inj hsplit
      exact hnil (.last hterm)
    · have hlength := congrArg List.length hsplit
      simp at hlength
  | @keep pre inst rest rest' hterm _ _ ih =>
    rcases p' with _ | ⟨x, p'⟩
    · obtain ⟨rfl, -⟩ := List.cons.inj hsplit
      exact hnil (.keep hterm)
    · rw [List.cons_append] at hsplit
      obtain ⟨rfl, htail⟩ := List.cons.inj hsplit
      exact hcons (mapValueOperands_result σ inst) (ih htail)
  | @const pre inst i' rest rest' hdefines hop htype hresult hint _ _ ih =>
    rcases p' with _ | ⟨x, p'⟩
    · obtain ⟨rfl, -⟩ := List.cons.inj hsplit
      exact hnil (.const hdefines hop htype hresult hint)
    · rw [List.cons_append] at hsplit
      obtain ⟨rfl, htail⟩ := List.cons.inj hsplit
      exact hcons hresult (ih htail)
  | @drop pre inst rest rest' _ hkeep _ ih =>
    obtain ⟨p, i, q, rfl, hedit, hp⟩ := ih hsplit
    refine ⟨inst :: p, i, q, rfl, hedit, fun v hv hne hv' => ?_⟩
    rcases List.mem_cons.1 hv with rfl | hv
    · rw [hkeep] at hv'
      cases hv'
    · exact hp v hv hne hv'

/-- An edited block ends in the edited terminator. -/
theorem Function.InstsEdit.closed {pre insts insts' : List Inst}
    (h : fn.InstsEdit pb σ keep b pre insts insts') :
    ∃ init init' term, insts = init ++ [term] ∧ isTerminator term.op = true ∧
      insts' = init' ++ [fn.editTerm σ keep term] ∧
      ∀ inst ∈ init', isTerminator inst.op = false := by
  induction h with
  | @last pre term hterm =>
    exact ⟨[], [], term, rfl, hterm, rfl, fun inst hinst => absurd hinst List.not_mem_nil⟩
  | @keep pre inst rest rest' hterm _ _ ih =>
    obtain ⟨init, init', term, rfl, hlast, rfl, hinit⟩ := ih
    refine ⟨inst :: init, mapValueOperands σ inst :: init', term, rfl, hlast, rfl, ?_⟩
    exact List.forall_mem_cons.2 ⟨by rw [mapValueOperands_op, hterm], hinit⟩
  | @const pre inst i' rest rest' _ hop _ _ _ _ _ ih =>
    obtain ⟨init, init', term, rfl, hlast, rfl, hinit⟩ := ih
    refine ⟨inst :: init, i' :: init', term, rfl, hlast, rfl, ?_⟩
    exact List.forall_mem_cons.2 ⟨by rw [hop]; rfl, hinit⟩
  | @drop pre inst rest rest' _ _ _ ih =>
    obtain ⟨init, init', term, rfl, hlast, rfl, hinit⟩ := ih
    exact ⟨inst :: init, init', term, rfl, hlast, rfl, hinit⟩

/-- An edit defines no value anew. -/
theorem Function.InstsEdit.sublist {pre insts insts' : List Inst}
    (h : fn.InstsEdit pb σ keep b pre insts insts') :
    (insts'.map Inst.result).Sublist (insts.map Inst.result) := by
  induction h with
  | @last pre term =>
    rw [List.map_singleton, List.map_singleton, editTerm_result]
  | @keep pre inst rest rest' _ _ _ ih =>
    rw [List.map_cons, List.map_cons, mapValueOperands_result]
    exact ih.cons_cons _
  | @const pre inst i' rest rest' _ _ _ hresult _ _ _ ih =>
    rw [List.map_cons, List.map_cons, hresult]
    exact ih.cons_cons _
  | drop _ _ _ ih => exact ih.cons _

/-- What is kept is defined as before. -/
theorem Function.InstsEdit.mem {pre insts insts' : List Inst}
    (h : fn.InstsEdit pb σ keep b pre insts insts') {v : ValueId} (hne : v ≠ noValue)
    (hkeep : keep v = true) (hv : v ∈ insts.map Inst.result) : v ∈ insts'.map Inst.result := by
  induction h with
  | @last pre term =>
    rw [List.map_singleton] at hv ⊢
    rwa [editTerm_result]
  | @keep pre inst rest rest' _ _ _ ih =>
    rw [List.map_cons] at hv ⊢
    rw [mapValueOperands_result]
    exact (List.mem_cons.1 hv).elim (fun he => he ▸ List.mem_cons_self)
      fun hv => List.mem_cons_of_mem _ (ih hv)
  | @const pre inst i' rest rest' _ _ _ hresult _ _ _ ih =>
    rw [List.map_cons] at hv ⊢
    rw [hresult]
    exact (List.mem_cons.1 hv).elim (fun he => he ▸ List.mem_cons_self)
      fun hv => List.mem_cons_of_mem _ (ih hv)
  | @drop pre inst rest rest' _ hdropped _ ih =>
    refine ih ((List.mem_cons.1 hv).resolve_left ?_)
    rintro rfl
    rw [hdropped] at hkeep
    cases hkeep

/-! ### Functions -/

theorem sublist_flatMap {α β : Type} {f g : α → List β} {xs ys : List α}
    (h : List.Forall₂ (fun x y => (f x).Sublist (g y)) xs ys) :
    (xs.flatMap f).Sublist (ys.flatMap g) := by
  induction h with
  | nil => exact List.Sublist.refl _
  | cons hx _ ih =>
    rw [List.flatMap_cons, List.flatMap_cons]
    exact hx.append ih

namespace Function.Edit

variable (hedit : fn.Edit pb σ keep fn')

include hedit

theorem valueOk_eq (v : ValueId) : Verifier.valueOk fn' v = Verifier.valueOk fn v := by
  rw [Verifier.valueOk, Verifier.valueOk, hedit.values]

theorem standsFor {v v' : ValueId} (h : StandsFor fn fn v v') : StandsFor fn fn' v v' :=
  ⟨fun hok => by rw [hedit.valueOk_eq]; exact h.ok hok, by rw [hedit.types]; exact h.type⟩

theorem exists_block {block' : Block} (hb : fn'.blocks[b]? = some block') :
    ∃ block, fn.blocks[b]? = some block ∧ block'.params = block.params.filter keep ∧
      fn.InstsEdit pb σ keep b [] block.insts block'.insts := by
  have hlt : b < fn.blocks.length := hedit.length ▸ (List.getElem?_eq_some_iff.1 hb).1
  have hblock := List.getElem?_eq_getElem hlt
  obtain ⟨block'', hb'', hparams, hinsts⟩ := hedit.blocks b _ hblock
  obtain rfl := Option.some.inj (hb.symm.trans hb'')
  exact ⟨_, hblock, hparams, hinsts⟩

theorem successors_eq : fn'.successors = fn.successors := by
  funext b
  rcases hb : fn.blocks[b]? with _ | block
  · have hb' : fn'.blocks[b]? = none := by
      rw [List.getElem?_eq_none_iff, hedit.length]
      exact List.getElem?_eq_none_iff.1 hb
    rw [Function.successors, Function.successors, List.getD_eq_getElem?_getD, hb',
      List.getD_eq_getElem?_getD, hb]
  · obtain ⟨block', hb', -, hinsts⟩ := hedit.blocks b block hb
    obtain ⟨init, init', term, hsplit, -, hsplit', -⟩ := hinsts.closed
    rw [Function.successors_eq hb' hsplit', Function.successors_eq hb hsplit,
      editTerm_successors]

theorem reach_iff : fn'.Reach b ↔ fn.Reach b := by
  rw [Function.Reach, hedit.successors_eq, Function.Reach]

theorem defs_of_keep {v : ValueId} (hkeep : keep v = true) (hv : fn.Defs b v) :
    fn'.Defs b v := by
  obtain ⟨block, hb, hv⟩ := hv
  obtain ⟨block', hb', hparams, hinsts⟩ := hedit.blocks b block hb
  refine ⟨block', hb', ?_⟩
  rcases List.mem_append.1 hv with hv | hv
  · rw [Block.defined, hparams]
    exact List.mem_append_left _ (List.mem_filter.2 ⟨hv, hkeep⟩)
  · obtain ⟨hv, hne⟩ := List.mem_filter.1 hv
    exact List.mem_append_right _
      (List.mem_filter.2 ⟨hinsts.mem (of_decide_eq_true hne) hkeep hv, hne⟩)

/-- What was available and is kept is available. -/
theorem avail_of_keep {p p' : List Inst} {v : ValueId} (hkeep : keep v = true)
    (hp : v ∈ p.map Inst.result → v ≠ noValue → v ∈ p'.map Inst.result)
    (hv : fn.Avail b p v) : fn'.Avail b p' v := by
  refine ⟨hv.1, ?_⟩
  rcases hv.2 with hparam | hresult | ⟨d, hne, hdom, hd⟩
  · rcases hb : fn.blocks[b]? with _ | block
    · rw [List.getD_eq_getElem?_getD, hb] at hparam
      cases hparam
    · obtain ⟨block', hb', hparams, -⟩ := hedit.blocks b block hb
      rw [Function.getD_blocks hb] at hparam
      rw [Function.getD_blocks hb', hparams]
      exact .inl (List.mem_filter.2 ⟨hparam, hkeep⟩)
  · exact .inr (.inl (hp hresult hv.1))
  · refine .inr (.inr ⟨d, hne, ?_, hedit.defs_of_keep hkeep hd⟩)
    rw [hedit.successors_eq]
    exact hdom

/-- A jump passes the arguments that are kept. -/
theorem jumpsTo {target : BlockId} {args : List ValueId} (h : fn.JumpsTo target args)
    (hσ : ∀ a ∈ args, StandsFor fn fn a (σ a)) :
    fn'.JumpsTo target
      ((keptArgs keep (fn.blocks.getD target {}).params args).map σ) := by
  obtain ⟨block, hb, htypes⟩ := h
  obtain ⟨block', hb', hparams, -⟩ := hedit.blocks target block hb
  refine ⟨block', hb', ?_⟩
  rw [hparams, Function.getD_blocks hb, List.forall₂_map_left_iff, List.forall₂_iff_zip]
  have hlength := htypes.length_eq.symm
  refine ⟨length_keptArgs hlength, fun {a p} hmem => ?_⟩
  have hmem : (p, a) ∈ (block.params.zip args).filter fun p => keep p.1 := by
    rw [← zip_keptArgs hlength, ← List.zip_swap, List.mem_map]
    exact ⟨(a, p), hmem, rfl⟩
  have hzip := (List.mem_filter.1 hmem).1
  have hzip' : (a, p) ∈ args.zip block.params := by
    rw [← List.zip_swap, List.mem_map]
    exact ⟨(p, a), hzip, rfl⟩
  have htype := (List.forall₂_iff_zip.1 htypes).2 hzip'
  rw [hedit.types]
  exact (hedit.standsFor (hσ a (List.of_mem_zip hzip).2)).has htype

theorem jumpsTo_nil {target : BlockId} (h : fn.JumpsTo target []) : fn'.JumpsTo target [] := by
  have hjump := hedit.jumpsTo h fun a ha => absurd ha List.not_mem_nil
  rwa [keptArgs, List.zip_nil_right] at hjump

/-- Where an instruction comes from. -/
theorem exists_inst {block' : Block} (hblock' : block' ∈ fn'.blocks) {inst' : Inst}
    (hinst' : inst' ∈ block'.insts) :
    ∃ block ∈ fn.blocks, ∃ inst ∈ block.insts, InstEdit fn σ keep inst inst' := by
  obtain ⟨b, hb'⟩ := List.mem_iff_getElem?.1 hblock'
  obtain ⟨block, hb, -, hinsts⟩ := hedit.exists_block hb'
  obtain ⟨p', q', hsplit'⟩ := List.append_of_mem hinst'
  obtain ⟨p, inst, q, hsplit, hinst, -⟩ := hinsts.split hsplit'
  refine ⟨block, List.mem_of_getElem? hb, inst, ?_, hinst⟩
  rw [hsplit]
  exact List.mem_append_right _ List.mem_cons_self

theorem wellTyped {block : Block} (hblock : block ∈ fn.blocks) {inst inst' : Inst}
    (hinst : inst ∈ block.insts) (htyped : inst.WellTyped module fn sig)
    (h : InstEdit fn σ keep inst inst') : inst'.WellTyped module fn' sig := by
  have hσ : ∀ v ∈ valueOperands inst, StandsFor fn fn' v (σ v) := fun v hv =>
    hedit.standsFor (hedit.stands block hblock inst hinst v hv)
  cases h with
  | last hterm =>
    rw [Function.editTerm]
    split
    · rename_i hop
      simp only [Inst.WellTyped, hop] at htyped ⊢
      refine hedit.jumpsTo htyped fun a ha => hedit.stands block hblock inst hinst a ?_
      rw [valueOperands.eq_def, hop]
      exact ha
    · rename_i hop
      exact htyped.map hop hσ hedit.slots fun target => hedit.jumpsTo_nil
  | keep hterm =>
    refine htyped.map (fun hop => ?_) hσ hedit.slots fun target => hedit.jumpsTo_nil
    rw [hop] at hterm
    cases hterm
  | const _ hop htype _ hint =>
    simp only [Inst.WellTyped, hop, htype]
    exact hint

/-- An edited function is in SSA form, and well typed. -/
theorem ssa (h : fn.Ssa module sig) : fn'.Ssa module sig where
  entry := by
    intro hnil
    have hlength := hedit.length
    rw [hnil] at hlength
    exact h.entry (List.length_eq_zero_iff.1 hlength.symm)
  closed := by
    intro block' hblock'
    obtain ⟨b, hb'⟩ := List.mem_iff_getElem?.1 hblock'
    obtain ⟨block, hb, -, hinsts⟩ := hedit.exists_block hb'
    obtain ⟨init, init', term, -, hterm, hsplit', hinit⟩ := hinsts.closed
    exact ⟨init', _, hsplit', by rw [editTerm_op, hterm], hinit⟩
  typed := by
    intro block' hblock' inst' hinst'
    obtain ⟨block, hblock, inst, hinst, hi⟩ := hedit.exists_inst hblock' hinst'
    exact hedit.wellTyped hblock hinst (h.typed block hblock inst hinst) hi
  results := by
    intro block' hblock' inst' hinst'
    obtain ⟨block, hblock, inst, hinst, hi⟩ := hedit.exists_inst hblock' hinst'
    exact hi.results (h.results block hblock inst hinst)
  recorded := by
    intro block' hblock' inst' hinst' hne
    obtain ⟨block, hblock, inst, hinst, hi⟩ := hedit.exists_inst hblock' hinst'
    rw [hi.result] at hne ⊢
    rw [hedit.types, hi.type]
    exact h.recorded block hblock inst hinst hne
  named := by
    intro block' hblock' p hp
    obtain ⟨b, hb'⟩ := List.mem_iff_getElem?.1 hblock'
    obtain ⟨block, hb, hparams, -⟩ := hedit.exists_block hb'
    rw [hparams] at hp
    exact h.named block (List.mem_of_getElem? hb) p (List.mem_filter.1 hp).1
  once := by
    have hforall : List.Forall₂ (fun block' block => block'.defined.Sublist block.defined)
        fn'.blocks fn.blocks := by
      rw [List.forall₂_iff_get]
      refine ⟨hedit.length, fun b hb' hb => ?_⟩
      obtain ⟨block, hblock, hparams, hinsts⟩ :=
        hedit.exists_block (List.getElem?_eq_getElem hb')
      obtain rfl := Option.some.inj ((List.getElem?_eq_getElem hb).symm.trans hblock)
      rw [List.get_eq_getElem, Block.defined, hparams]
      exact List.filter_sublist.append (hinsts.sublist.filter _)
    exact (sublist_flatMap hforall).nodup h.once
  uses := by
    intro b block' hreach hb' p' inst' q' hsplit' v' hv'
    obtain ⟨block, hb, -, hinsts⟩ := hedit.exists_block hb'
    obtain ⟨p, inst, q, hsplit, hinst, hp⟩ := hinsts.split hsplit'
    obtain ⟨v, hv, rfl⟩ := List.mem_map.1 (hinst.operands hv')
    obtain ⟨havail, hkeep⟩ :=
      hedit.avail b block (hedit.reach_iff.1 hreach) hb p inst q hsplit v hv
    exact hedit.avail_of_keep hkeep (fun hmem hne => hp _ hmem hne hkeep) havail

end Function.Edit

end

/-! ## Runs of edited functions -/

/-- What the machine gives for an instruction is a word of its type, and what is removed when it
    is not used does nothing else. -/
structure Host.Serves {W : Type} (H : Host W) (pb : Nat) : Prop where
  word : ∀ shape operands w x w', H.exec shape operands w = .done x w' →
    definesValue shape.op = true → shape.type ≠ .void → IsWordOf pb shape.type x
  quiet : ∀ shape operands w, isPure shape.op = true →
    H.exec shape operands w = .wrong ∨ ∃ x, H.exec shape operands w = .done x w

/-- The registers agree on what is available and kept. -/
def Function.Agree (fn : Function) (keep : ValueId → Bool) (b : BlockId) (pre : List Inst)
    (ρ ρ' : Regs) : Prop :=
  ∀ v, fn.Avail b pre v → keep v = true → ρ v = ρ' v

/-- A block and the edited one end alike, where the first does not go wrong. -/
inductive Function.EndsAlike {W : Type} (fn fn' : Function) (pb : Nat) (keep : ValueId → Bool) :
    RunOutcome W (Regs × BlockExit) → RunOutcome W (Regs × BlockExit) → Prop
  | wrong {out'} : EndsAlike fn fn' pb keep .wrong out'
  | running {w} : EndsAlike fn fn' pb keep (.running w) (.running w)
  | ret {ρ ρ' values w} :
      EndsAlike fn fn' pb keep (.done (ρ, .ret values) w) (.done (ρ', .ret values) w)
  | goto {ρ ρ' target args args' w} (hseen : fn.Seen pb target [] (fn.enter target args ρ))
      (hagree : fn.Agree keep target [] (fn.enter target args ρ) (fn'.enter target args' ρ')) :
      EndsAlike fn fn' pb keep (.done (ρ, .goto target args) w) (.done (ρ', .goto target args') w)

section

variable {module : Module} {sig : Signature} {fn fn' : Function} {pb : Nat}
  {σ : ValueId → ValueId} {keep : ValueId → Bool} {b : BlockId} {W : Type} {H : Host W}

theorem Inst.WellTyped.type_of_comparison {inst : Inst} (h : inst.WellTyped module fn sig)
    (hop : isIntComparison inst.op = true) : inst.type = .i1 := by
  cases hcase : inst.op with
  | icmpEq | icmpNe | icmpSlt | icmpSle | icmpSgt | icmpSge | icmpUlt | icmpUle | icmpUgt
  | icmpUge =>
    simp only [Inst.WellTyped, hcase] at h
    exact h.2.2
  | _ =>
    rw [hcase] at hop
    cases hop

/-- What a step gives for a well typed instruction. -/
theorem Host.Serves.step (hserves : H.Serves pb) {inst : Inst}
    (htyped : inst.WellTyped module fn sig)
    (hresult : inst.result ≠ noValue ↔ definesValue inst.op = true ∧ inst.type ≠ .void)
    {operands : List (Ty × BitVec 64)} {w w' : W} {x : BitVec 64}
    (hstep : H.step pb inst.shape operands w = .done x w') :
    (inst.result ≠ noValue → IsWordOf pb inst.type x) ∧
      ∀ y, inst.value? pb operands = some y → x = y := by
  rw [Host.step, value?_shape] at hstep
  rcases hvalue : inst.value? pb operands with _ | y
  · rw [hvalue] at hstep
    refine ⟨fun hne => ?_, fun y hy => absurd hy (by simp)⟩
    have hshape : inst.shape.op = inst.op ∧ inst.shape.type = inst.type :=
      ⟨mapValueOperands_op _ _, mapValueOperands_type _ _⟩
    obtain ⟨hdefines, htype⟩ := hresult.1 hne
    rw [← hshape.1] at hdefines
    rw [← hshape.2] at htype ⊢
    exact hserves.word _ _ _ _ _ hstep hdefines htype
  · rw [hvalue] at hstep
    obtain ⟨rfl, -⟩ := RunOutcome.done.inj hstep
    refine ⟨fun _ => Inst.isWordOf_of_value? hvalue htyped.type_of_comparison, fun z hz => ?_⟩
    exact Option.some.inj hz

namespace Function.Edit

variable (hedit : fn.Edit pb σ keep fn') (h : fn.Ssa module sig)

include hedit h

/-- The words of the operands of an edited instruction. -/
theorem operand_eq {block : Block} (hb : fn.blocks[b]? = some block) {pre post : List Inst}
    {inst : Inst} (hsplit : block.insts = pre ++ inst :: post) {ρ ρ' : Regs}
    (hseen : fn.Seen pb b pre ρ) (hagree : fn.Agree keep b pre ρ ρ') {v : ValueId}
    (hv : v ∈ valueOperands inst) : σ v ≠ noValue ∧ ρ' (σ v) = ρ v := by
  have hreach := (hseen.front h).1.reach
  obtain ⟨havail, hkeep⟩ := hedit.avail b block hreach hb pre inst post hsplit v hv
  have hv' := h.uses b block hreach hb pre inst post hsplit v hv
  exact ⟨havail.1, (hagree _ havail hkeep).symm.trans (hedit.same b pre ρ hseen v hv')⟩

theorem operands_eq {block : Block} (hb : fn.blocks[b]? = some block) {pre post : List Inst}
    {inst : Inst} (hsplit : block.insts = pre ++ inst :: post) {ρ ρ' : Regs}
    (hseen : fn.Seen pb b pre ρ) (hagree : fn.Agree keep b pre ρ ρ') :
    fn'.operands (mapValueOperands σ inst) ρ' = fn.operands inst ρ := by
  have heq {v : ValueId} (hv : v ∈ valueOperands inst) :=
    hedit.operand_eq h hb hsplit hseen hagree hv
  have hmem : inst ∈ block.insts := by
    rw [hsplit]
    exact List.mem_append_right _ List.mem_cons_self
  rw [Function.operands, valueOperands_map fun v hv => (heq hv).1, List.map_map]
  refine List.map_congr_left fun v hv => ?_
  have hstands := hedit.stands block (List.mem_of_getElem? hb) inst hmem v hv
  rw [Function.comp_apply, hedit.types, hstands.type, (heq hv).2]

/-- The registers in the next block. -/
theorem agree_enter {block : Block} (hb : fn.blocks[b]? = some block) {pre : List Inst}
    {term : Inst} (hsplit : block.insts = pre ++ [term]) (hterm : isTerminator term.op = true)
    {ρ ρ' : Regs} (hagree : fn.Agree keep b pre ρ ρ') {target : BlockId}
    {args args' : List (BitVec 64)} (hexit : fn.exit term ρ = some (.goto target args))
    (hargs : ∀ p x, keep p = true → (p, x) ∈ (fn.blocks.getD target {}).params.zip args →
      (p, x) ∈ (fn'.blocks.getD target {}).params.zip args') :
    fn.Agree keep target [] (fn.enter target args ρ) (fn'.enter target args' ρ') := by
  have hmem : term ∈ block.insts := by
    rw [hsplit]
    exact List.mem_append_right _ List.mem_cons_self
  obtain ⟨htarget, targs, rfl, ⟨tblock, htblock, htypes⟩, -⟩ :=
    exit_goto (h.typed block (List.mem_of_getElem? hb) term hmem) hexit
  rw [← Function.successors_eq hb hsplit] at htarget
  obtain ⟨tblock', htblock', hparams, -⟩ := hedit.blocks target tblock htblock
  have hnodup := h.params_nodup target
  have hnodup' := (hedit.ssa h).params_nodup target
  rw [Function.getD_blocks htblock] at hargs hnodup
  rw [Function.getD_blocks htblock'] at hargs hnodup'
  rintro v ⟨hne, hparam | hresult | habove⟩ hkeep
  · rw [Function.getD_blocks htblock] at hparam
    obtain ⟨a, hzip, -⟩ := exists_arg htypes hparam
    have hzip : (v, ρ a) ∈ tblock.params.zip (targs.map ρ) := by
      rw [List.zip_map_right]
      exact List.mem_map_of_mem (f := Prod.map id ρ) hzip
    rw [Function.enter, Function.enter, Function.getD_blocks htblock,
      Function.getD_blocks htblock', bindParams_of_mem hnodup hzip,
      bindParams_of_mem hnodup' (hargs v _ hkeep hzip)]
  · cases hresult
  · have hnot := fun hmem => h.not_above_param hmem habove
    rw [Function.getD_blocks htblock] at hnot
    rw [Function.enter, Function.enter, Function.getD_blocks htblock,
      Function.getD_blocks htblock', bindParams_of_not_mem hnot, bindParams_of_not_mem]
    · exact hagree v (h.avail_of_above hb hsplit hterm htarget hne habove) hkeep
    · rw [hparams]
      exact fun hmem => hnot (List.mem_filter.1 hmem).1

/-- The exit of an edited block. -/
theorem exit_alike {block : Block} (hb : fn.blocks[b]? = some block) {pre : List Inst}
    {term : Inst} (hsplit : block.insts = pre ++ [term]) (hterm : isTerminator term.op = true)
    {ρ ρ' : Regs} (hseen : fn.Seen pb b pre ρ) (hagree : fn.Agree keep b pre ρ ρ')
    {exit : BlockExit} (hexit : fn.exit term ρ = some exit) (w : W) :
    ∃ exit', fn'.exit (fn.editTerm σ keep term) ρ' = some exit' ∧
      fn.EndsAlike fn' pb keep (.done (ρ, exit) w) (.done (ρ', exit') w) := by
  have hmem : term ∈ block.insts := by
    rw [hsplit]
    exact List.mem_append_right _ List.mem_cons_self
  have heq {v : ValueId} (hv : v ∈ valueOperands term) : ρ' (σ v) = ρ v :=
    (hedit.operand_eq h hb hsplit hseen hagree hv).2
  have hgoto {target : BlockId} {args args' : List (BitVec 64)}
      (hexit : fn.exit term ρ = some (.goto target args))
      (hargs : ∀ p x, keep p = true → (p, x) ∈ (fn.blocks.getD target {}).params.zip args →
        (p, x) ∈ (fn'.blocks.getD target {}).params.zip args') :
      fn.EndsAlike fn' pb keep (.done (ρ, .goto target args) w)
        (.done (ρ', .goto target args') w) :=
    .goto (hseen.goto hb hsplit hterm hexit)
      (hedit.agree_enter h hb hsplit hterm hagree hexit hargs)
  have hnone (target : BlockId) (p : ValueId) (x : BitVec 64) (_ : keep p = true)
      (hzip : (p, x) ∈ (fn.blocks.getD target {}).params.zip []) :
      (p, x) ∈ (fn'.blocks.getD target {}).params.zip ([] : List (BitVec 64)) := by
    rw [List.zip_nil_right] at hzip
    cases hzip
  have htyped := h.typed block (List.mem_of_getElem? hb) term hmem
  cases hop : term.op with
  | jump =>
    simp only [Function.exit, hop] at hexit
    obtain rfl := Option.some.inj hexit
    simp only [Inst.WellTyped, hop] at htyped
    obtain ⟨tblock, htblock, htypes⟩ := htyped
    obtain ⟨tblock', htblock', hparams, -⟩ := hedit.blocks term.a tblock htblock
    have hgetD := Function.getD_blocks htblock
    rw [Function.editTerm, if_pos hop, hgetD]
    simp only [Function.exit, hop]
    refine ⟨_, rfl, hgoto (by simp only [Function.exit, hop]) fun p x hkeep hzip => ?_⟩
    rw [hgetD, List.zip_map_right] at hzip
    obtain ⟨⟨q, a⟩, hqa, heq'⟩ := List.mem_map.1 hzip
    obtain ⟨rfl, rfl⟩ := Prod.mk.inj heq'
    rw [Function.getD_blocks htblock', hparams, List.map_map, List.zip_map_right,
      zip_keptArgs htypes.length_eq.symm]
    have ha : a ∈ valueOperands term := by
      rw [valueOperands.eq_def, hop]
      exact (List.of_mem_zip hqa).2
    refine List.mem_map.2 ⟨(q, a), List.mem_filter.2 ⟨hqa, hkeep⟩, ?_⟩
    rw [Prod.map_apply, Function.comp_apply, heq ha]
  | branch =>
    have ha : term.a ∈ valueOperands term := by
      rw [valueOperands.eq_def, hop]
      exact List.mem_cons_self
    have hsame : fn'.exit (fn.editTerm σ keep term) ρ' = fn.exit term ρ := by
      rw [Function.editTerm, if_neg (by rw [hop]; decide)]
      simp only [Function.exit, mapValueOperands, hop, heq ha]
    rw [hsame, hexit]
    simp only [Function.exit, hop] at hexit
    obtain rfl := Option.some.inj hexit
    exact ⟨_, rfl, hgoto (by simp only [Function.exit, hop]) (hnone _)⟩
  | switch =>
    have ha : term.a ∈ valueOperands term := by
      rw [valueOperands.eq_def, hop]
      exact List.mem_cons_self
    have hstands := hedit.stands block (List.mem_of_getElem? hb) term hmem term.a ha
    have hsame : fn'.exit (fn.editTerm σ keep term) ρ' = fn.exit term ρ := by
      rw [Function.editTerm, if_neg (by rw [hop]; decide)]
      simp only [Function.exit, mapValueOperands, hop, heq ha, hedit.types, hstands.type]
    rw [hsame, hexit]
    simp only [Function.exit, hop] at hexit
    obtain rfl := Option.some.inj hexit
    exact ⟨_, rfl, hgoto (by simp only [Function.exit, hop]) (hnone _)⟩
  | ret =>
    have hsame : fn'.exit (fn.editTerm σ keep term) ρ' = fn.exit term ρ := by
      rw [Function.editTerm, if_neg (by rw [hop]; decide)]
      simp only [Function.exit, mapValueOperands, hop, List.map_map]
      refine congrArg (fun values => some (BlockExit.ret values)) (List.map_congr_left ?_)
      intro v hv
      refine heq ?_
      rw [valueOperands.eq_def, hop]
      exact hv
    rw [hsame, hexit]
    simp only [Function.exit, hop] at hexit
    obtain rfl := Option.some.inj hexit
    exact ⟨_, rfl, .ret⟩
  | _ =>
    simp only [Function.exit, hop] at hexit
    cases hexit

/-- The instructions of a block and of the edited one. -/
theorem runInsts_alike (hserves : H.Serves pb) {block : Block} (hb : fn.blocks[b]? = some block)
    {pre insts insts' : List Inst} (hinsts : fn.InstsEdit pb σ keep b pre insts insts')
    (hsplit : block.insts = pre ++ insts) {ρ ρ' : Regs} (hseen : fn.Seen pb b pre ρ)
    (hagree : fn.Agree keep b pre ρ ρ') (w : W) :
    fn.EndsAlike fn' pb keep (fn.runInsts H pb insts ρ w) (fn'.runInsts H pb insts' ρ' w) := by
  have hstep {pre : List Inst} {inst : Inst} {rest : List Inst}
      (hsplit : block.insts = pre ++ inst :: rest) {ρ : Regs} (hseen : fn.Seen pb b pre ρ)
      {w w' : W} {x : BitVec 64}
      (hx : H.step pb inst.shape (fn.operands inst ρ) w = .done x w') :
      fn.Seen pb b (pre ++ [inst]) (Function.update ρ inst.result x) ∧
        block.insts = pre ++ [inst] ++ rest := by
    have hmem : inst ∈ block.insts := by
      rw [hsplit]
      exact List.mem_append_right _ List.mem_cons_self
    have hblock := List.mem_of_getElem? hb
    obtain ⟨hword, hvalue⟩ := hserves.step (h.typed block hblock inst hmem)
      (h.results block hblock inst hmem) hx
    refine ⟨hseen.step hb hsplit hword hvalue, ?_⟩
    rw [hsplit, List.append_assoc]
    rfl
  have hupdate {pre : List Inst} {inst : Inst} {ρ ρ' : Regs} (hagree : fn.Agree keep b pre ρ ρ')
      (x : BitVec 64) : fn.Agree keep b (pre ++ [inst]) (Function.update ρ inst.result x)
        (Function.update ρ' inst.result x) := by
    intro v hv hkeep
    by_cases hne : v = inst.result
    · rw [hne, Function.update_self, Function.update_self]
    · rw [Function.update_of_ne hne, Function.update_of_ne hne]
      exact hagree v (hv.snoc.resolve_right hne) hkeep
  -- the induction follows the edit of the instructions, one case for each kind of edit
  induction hinsts generalizing ρ ρ' w with
  | @last pre term hterm =>
    rw [Function.runInsts, if_pos hterm, Function.runInsts, if_pos (by rw [editTerm_op, hterm])]
    rcases hexit : fn.exit term ρ with _ | exit
    · exact .wrong
    · obtain ⟨exit', hexit', halike⟩ :=
        hedit.exit_alike h hb hsplit hterm hseen hagree hexit w
      rw [hexit']
      exact halike
  | @keep pre inst rest rest' hterm hkeep hrest ih =>
    have hoperands := hedit.operands_eq h hb hsplit hseen hagree
    rw [Function.runInsts, if_neg (by simp [hterm]), Function.runInsts,
      if_neg (by simp [hterm]), shape_map, hoperands, mapValueOperands_result]
    rcases hx : H.step pb inst.shape (fn.operands inst ρ) w with ⟨x, w'⟩ | w' | _
    · obtain ⟨hseen', hsplit'⟩ := hstep hsplit hseen hx
      exact ih hsplit' hseen' (hupdate hagree x) w'
    · exact .running
    · exact .wrong
  | @const pre inst inst' rest rest' hdefines hop htype hresult hint hvalue hrest ih =>
    -- the constant that stands there now is the value that was computed
    have hx : H.step pb inst.shape (fn.operands inst ρ) w =
        .done (wordOf pb inst.type inst'.imm) w := by
      rw [Host.step, value?_shape, hvalue ρ hseen]
    have hx' : H.step pb inst'.shape (fn'.operands inst' ρ') w =
        .done (wordOf pb inst.type inst'.imm) w := by
      have hnil : fn'.operands inst' ρ' = [] := by
        rw [Function.operands, valueOperands.eq_def, hop]
        rfl
      rw [Host.step, value?_shape, hnil]
      simp only [Inst.value?, hop, htype]
    rw [Function.runInsts, if_neg (by simp [isTerminator_of_definesValue hdefines]),
      Function.runInsts, if_neg (by rw [hop]; decide), hx, hx', hresult]
    obtain ⟨hseen', hsplit'⟩ := hstep hsplit hseen hx
    exact ih hsplit' hseen' (hupdate hagree _) w
  | @drop pre inst rest rest' hpure hkeep hrest ih =>
    -- a pure instruction leaves the world as it is, or it is undefined and promises nothing
    have hdefines : definesValue inst.op = true := by
      rw [isPure, Bool.and_eq_true, Bool.and_eq_true] at hpure
      exact hpure.1.1
    rw [Function.runInsts, if_neg (by simp [isTerminator_of_definesValue hdefines])]
    have hquiet : H.step pb inst.shape (fn.operands inst ρ) w = .wrong ∨
        ∃ x, H.step pb inst.shape (fn.operands inst ρ) w = .done x w := by
      rw [Host.step]
      split
      · exact .inr ⟨_, rfl⟩
      · refine hserves.quiet _ _ _ ?_
        rwa [show inst.shape.op = inst.op from mapValueOperands_op _ _]
    rcases hquiet with hx | ⟨x, hx⟩
    · rw [hx]
      exact .wrong
    · rw [hx]
      obtain ⟨hseen', hsplit'⟩ := hstep hsplit hseen hx
      refine ih hsplit' hseen' (fun v hv hv' => ?_) w
      have hne : v ≠ inst.result := by
        rintro rfl
        rw [hkeep] at hv'
        cases hv'
      rw [Function.update_of_ne hne]
      exact hagree v (hv.snoc.resolve_right hne) hv'

/-- Runs from a block. -/
theorem run (hserves : H.Serves pb) (fuel : Nat) {ρ ρ' : Regs} (hseen : fn.Seen pb b [] ρ)
    (hagree : fn.Agree keep b [] ρ ρ') (w : W) :
    fn.run H pb fuel b ρ w = .wrong ∨ fn'.run H pb fuel b ρ' w = fn.run H pb fuel b ρ w := by
  induction fuel generalizing b ρ ρ' w with
  | zero => exact .inr rfl
  | succ fuel ih =>
    rw [Function.run, Function.run]
    rcases hb : fn.blocks[b]? with _ | block
    · exact .inl rfl
    obtain ⟨block', hb', -, hinsts⟩ := hedit.blocks b block hb
    rw [hb']
    have halike := hedit.runInsts_alike h hserves hb hinsts rfl hseen hagree w
    dsimp only
    generalize fn.runInsts H pb block.insts ρ w = out at halike ⊢
    generalize fn'.runInsts H pb block'.insts ρ' w = out' at halike ⊢
    cases halike with
    | wrong => exact .inl rfl
    | running => exact .inr rfl
    | ret => exact .inr rfl
    | goto hseen' hagree' => exact ih hseen' hagree' _

theorem params_root :
    (fn'.blocks.getD 0 {}).params = (fn.blocks.getD 0 {}).params := by
  obtain ⟨block, blocks, hblocks⟩ := List.exists_cons_of_ne_nil h.entry
  have hb : fn.blocks[0]? = some block := by rw [hblocks]; rfl
  obtain ⟨block', hb', hparams, -⟩ := hedit.blocks 0 block hb
  have hroot := hedit.root
  rw [Function.getD_blocks hb] at hroot ⊢
  rw [Function.getD_blocks hb', hparams, List.filter_eq_self.2 hroot]

/-- Calls. -/
theorem call (hserves : H.Serves pb) (fuel : Nat) {args : List (BitVec 64)}
    (hargs : fn.TakesWords pb 0 args) (w : W) :
    fn.call H pb fuel args w = .wrong ∨ fn'.call H pb fuel args w = fn.call H pb fuel args w := by
  refine hedit.run h hserves fuel (.entry hargs) (fun v _ _ => ?_) w
  rw [Function.enter, Function.enter, hedit.params_root h]

end Function.Edit

end

/-! ## Refinement -/

/-- The function does what the other one did, on every machine, where that did not go wrong. -/
structure Function.Refines (pb : Nat) (fn fn' : Function) : Prop where
  takes : ∀ args, fn'.TakesWords pb 0 args ↔ fn.TakesWords pb 0 args
  call : ∀ {W : Type} (H : Host W), H.Serves pb → ∀ fuel args w, fn.TakesWords pb 0 args →
    fn.call H pb fuel args w = .wrong ∨ fn'.call H pb fuel args w = fn.call H pb fuel args w

section

variable {module : Module} {sig : Signature} {pb : Nat} {fn fn' fn'' : Function}

theorem Function.Refines.refl : Function.Refines pb fn fn :=
  ⟨fun _ => Iff.rfl, fun _ _ _ _ _ _ => .inr rfl⟩

theorem Function.Refines.trans (h : Function.Refines pb fn fn')
    (h' : Function.Refines pb fn' fn'') : Function.Refines pb fn fn'' := by
  refine ⟨fun args => (h'.takes args).trans (h.takes args), fun H hserves fuel args w hargs => ?_⟩
  rcases h.call H hserves fuel args w hargs with hwrong | heq
  · exact .inl hwrong
  · have h'' := h'.call H hserves fuel args w ((h.takes args).2 hargs)
    rwa [heq] at h''

theorem Function.Edit.refines {σ : ValueId → ValueId} {keep : ValueId → Bool}
    (hedit : fn.Edit pb σ keep fn') (h : fn.Ssa module sig) : Function.Refines pb fn fn' := by
  refine ⟨fun args => ?_, fun H hserves fuel args w hargs => hedit.call h hserves fuel hargs w⟩
  rw [Function.TakesWords, Function.TakesWords, hedit.params_root h]
  simp only [hedit.types]

end

end Mirage
