import Mirage.Mir.Edits
import Mirage.Mir.Peephole

/-!
# Functions read through aliases

Between two steps of a sweep the function is what the current blocks are when they are read
through the aliases found so far (`Function.through`). An alias more renames one value in it
(`Function.through_cons`), as no chain of aliases closes a circle (`Chain`).
-/

namespace Mirage

open Dominators

/-! ## Aliases -/

namespace Peep

theorem lookup_cons_ne {α : Type} {r v : ValueId} (hne : v ≠ r) (x : α) (m : List (ValueId × α)) :
    ((r, x) :: m).lookup v = m.lookup v := by
  rw [List.lookup_cons, beq_eq_false_iff_ne.2 hne]

theorem follow_end {m : Remap} {v : ValueId} (h : m.lookup v = none) (n : Nat) :
    follow m n v = v := by
  cases n with
  | zero => rfl
  | succ n => rw [follow, h]

/-- An alias closes no circle. -/
inductive Chain : Remap → Prop
  | nil : Chain []
  | cons {r x m} (hm : Chain m) (hr : m.lookup r = none) (hx : m.lookup x = none) (hne : x ≠ r) :
      Chain ((r, x) :: m)

/-- With one alias more, the end of a chain moves when it is the new one. -/
theorem follow_cons {m : Remap} {r x : ValueId} (hr : m.lookup r = none) (hx : m.lookup x = none)
    (hne : x ≠ r) {n : Nat} {v : ValueId} (hend : m.lookup (follow m n v) = none) :
    follow ((r, x) :: m) (n + 1) v = Function.update id r x (follow m n v) := by
  have hx' : ((r, x) :: m).lookup x = none := by rw [lookup_cons_ne hne, hx]
  -- the new link is followed once at most, and is the last one: its end is no alias
  induction n generalizing v with
  | zero =>
    rw [follow] at hend
    by_cases hv : v = r
    · subst hv
      simp only [follow, List.lookup_cons_self, Function.update_self]
    · simp only [follow, lookup_cons_ne hv, hend, Function.update_of_ne hv, id_eq]
  | succ n ih =>
    by_cases hv : v = r
    · subst hv
      rw [follow_end hr, follow, List.lookup_cons_self, Function.update_self]
      exact follow_end hx' _
    · rw [follow, lookup_cons_ne hv]
      rw [follow] at hend ⊢
      cases hlookup : m.lookup v with
      | none =>
        dsimp only
        rw [Function.update_of_ne hv, id_eq]
      | some u =>
        rw [hlookup] at hend
        exact ih hend

/-- A resolved value is no alias. -/
theorem Chain.lookup_resolve {m : Remap} (h : Chain m) (v : ValueId) :
    m.lookup (resolve m v) = none := by
  induction h with
  | nil => rfl
  | @cons r x m hm hr hx hne ih =>
    have hend : m.lookup (follow m m.length v) = none := ih
    rw [resolve, List.length_cons, follow_cons hr hx hne hend]
    by_cases hv : follow m m.length v = r
    · rw [hv, Function.update_self, lookup_cons_ne hne, hx]
    · rw [Function.update_of_ne hv, id_eq, lookup_cons_ne hv, hend]

theorem Chain.resolve_cons {m : Remap} (h : Chain m) {r x : ValueId} (hr : m.lookup r = none)
    (hx : m.lookup x = none) (hne : x ≠ r) (v : ValueId) :
    resolve ((r, x) :: m) v = Function.update id r x (resolve m v) :=
  follow_cons hr hx hne (h.lookup_resolve v)

theorem resolveOperand_noValue (m : Remap) : resolveOperand m noValue = noValue := by
  rw [resolveOperand]
  simp

theorem resolveOperand_of_ne (m : Remap) {v : ValueId} (h : v ≠ noValue) :
    resolveOperand m v = resolve m v := by
  rw [resolveOperand, if_pos (by simpa using h)]

theorem resolveOperand_nil : resolveOperand [] = id := by
  funext v
  rw [resolveOperand]
  split <;> rfl

theorem Chain.resolveOperand_cons {m : Remap} (h : Chain m) {r x : ValueId}
    (hr : m.lookup r = none) (hx : m.lookup x = none) (hne : x ≠ r) (hnone : r ≠ noValue) :
    resolveOperand ((r, x) :: m) = Function.update id r x ∘ resolveOperand m := by
  funext v
  rw [Function.comp_apply]
  by_cases hv : v = noValue
  · rw [hv, resolveOperand_noValue, resolveOperand_noValue, Function.update_of_ne (Ne.symm hnone),
      id_eq]
  · rw [resolveOperand_of_ne _ hv, resolveOperand_of_ne _ hv, h.resolve_cons hr hx hne]

/-- A resolved value is the value itself, or what an alias stands for. -/
theorem follow_mem (m : Remap) (n : Nat) (v : ValueId) :
    follow m n v = v ∨ ∃ k, m.lookup k = some (follow m n v) := by
  induction n generalizing v with
  | zero => exact .inl rfl
  | succ n ih =>
    rw [follow]
    cases hlookup : m.lookup v with
    | none => exact .inl rfl
    | some u =>
      dsimp only
      rcases ih u with heq | hk
      · rw [heq]
        exact .inr ⟨v, hlookup⟩
      · exact .inr hk

theorem mem_usedValues {blocks : List Block} {block : Block} (hblock : block ∈ blocks) {inst : Inst}
    (hinst : inst ∈ block.insts) {v : ValueId} (hv : v ∈ valueOperands inst) (hne : v ≠ noValue) :
    v ∈ usedValues blocks := by
  rw [usedValues, List.mem_filter, bne_iff_ne]
  exact ⟨List.mem_flatMap.2 ⟨inst, List.mem_flatMap.2 ⟨block, hblock, hinst⟩, hv⟩, hne⟩

end Peep

/-! ## Functions read through aliases -/

open Peep

/-- The function with its operands read through the aliases. -/
def Function.through (m : Remap) (fn : Function) : Function :=
  { fn with blocks := fn.blocks.map fun block =>
      { block with insts := block.insts.map (mapValueOperands (resolveOperand m)) } }

theorem mapValueOperands_comp {f g : ValueId → ValueId} (hf : f noValue = noValue) (inst : Inst) :
    mapValueOperands f (mapValueOperands g inst) = mapValueOperands (f ∘ g) inst := by
  obtain ⟨op, type, result, a, b, c, imm, args⟩ := inst
  unfold mapValueOperands
  cases op
  all_goals
    first
      | rfl
      | (dsimp only [Function.comp_apply]
         rw [List.map_map])
      -- an operand that is missing stays missing
      | (by_cases hb : b = noValue
         · simp [hb]
         · by_cases hg : g b = noValue
           · simp [hb, hg, hf]
           · simp [hb, hg])

section

variable {module : Module} {sig : Signature} {fn : Function} {pb : Nat} {σ : ValueId → ValueId}

theorem Function.through_nil : fn.through [] = fn := by
  rw [Function.through, resolveOperand_nil]
  have hinsts (insts : List Inst) : insts.map (mapValueOperands id) = insts := by
    rw [List.map_congr_left fun inst _ => mapValueOperands_id inst, List.map_id']
  simp only [hinsts, List.map_id']

theorem through_applyRemap {m : Remap} {blocks : List Block} :
    Function.through m { fn with blocks } = { fn with blocks := applyRemap m blocks } := by
  cases m with
  | nil => exact Function.through_nil
  | cons entry m => rfl

/-- Renaming operands alone. -/
theorem Function.Ssa.renamed_all (h : fn.Ssa module sig) :
    fn.renamed σ (fun _ => true) = { fn with blocks := fn.blocks.map fun block =>
      { block with insts := block.insts.map (mapValueOperands σ) } } := by
  rw [Function.renamed]
  refine congrArg (fun blocks => { fn with blocks }) (List.map_congr_left fun block hblock => ?_)
  have hparams : block.params.filter (fun _ => true) = block.params :=
    List.filter_eq_self.2 fun _ _ => rfl
  rw [hparams]
  refine congrArg (fun insts => { block with insts }) (List.map_congr_left fun inst hinst => ?_)
  rw [editTerm_all (h.typed block hblock inst hinst) fun _ _ _ => rfl, ite_self]

/-- An alias more. -/
theorem Function.through_cons {m : Remap} (hm : Chain m) {r x : ValueId}
    (hr : m.lookup r = none) (hx : m.lookup x = none) (hne : x ≠ r) (hnone : r ≠ noValue)
    (h : (fn.through m).Ssa module sig) :
    fn.through ((r, x) :: m) =
      (fn.through m).renamed (Function.update id r x) (fun _ => true) := by
  rw [h.renamed_all, Function.through, Function.through, hm.resolveOperand_cons hr hx hne hnone]
  have hupdate : Function.update id r x noValue = noValue := by
    rw [Function.update_of_ne (Ne.symm hnone), id_eq]
  simp only [List.map_map]
  refine congrArg (fun blocks => { fn with blocks }) (List.map_congr_left fun block _ => ?_)
  rw [Function.comp_apply]
  refine congrArg (fun insts => { block with insts }) ?_
  rw [List.map_map]
  exact List.map_congr_left fun inst _ => (mapValueOperands_comp hupdate inst).symm

end

/-! ## What a pass keeps -/

/-- All blocks can be reached. -/
def Function.AllReach (fn : Function) : Prop := ∀ b, b < fn.blocks.length → fn.Reach b

/-- The function is in SSA form, and does what the other one did. -/
structure Function.Preserved (module : Module) (sig : Signature) (pb : Nat)
    (orig fn : Function) : Prop where
  ssa : fn.Ssa module sig
  refines : Function.Refines pb orig fn
  reach : orig.AllReach → fn.AllReach

section

variable {module : Module} {sig : Signature} {orig fn fn' : Function} {pb : Nat}

theorem Function.Preserved.edit {σ : ValueId → ValueId} {keep : ValueId → Bool}
    (h : Function.Preserved module sig pb orig fn) (hedit : fn.Edit pb σ keep fn') :
    Function.Preserved module sig pb orig fn' :=
  ⟨hedit.ssa h.ssa, h.refines.trans (hedit.refines h.ssa), fun horig b hb =>
    hedit.reach_iff.2 (h.reach horig b (hedit.length ▸ hb))⟩

theorem Function.Ssa.preserved (h : fn.Ssa module sig) :
    Function.Preserved module sig pb fn fn := ⟨h, .refl, id⟩

end

end Mirage
