import Mirage.Mir.Verify

/-!
# Jumps of accepted functions

A jump passes its arguments to the parameters of its target. `JumpAt` says where a jump
is, and what the builder promises about the parameters around it.

* `JumpAt.args_length`, `JumpAt.types`: the arguments are as many values as the target has
  parameters, and of the same types.
* `JumpAt.nodup`: the parameters of the target are different values.
-/

namespace Mirage

open Verifier

/-- A jump at the end of a block of an accepted function. The builder numbers the values
    of a function one by one, so that the parameters of its blocks are different values. -/
structure JumpAt (module : Module) (fn : Function) (b : BlockId) (block : Block) (inst : Inst)
    (target : Block) : Prop where
  accepted : fn.Accepted module
  source : fn.blocks[b]? = some block
  last : block.insts.getLast? = some inst
  op : inst.op = .jump
  dest : fn.blocks[inst.a]? = some target
  value : ∀ block ∈ fn.blocks, ∀ p ∈ block.params, valueOk fn p = true
  distinct : (fn.blocks.flatMap Block.params).Nodup

/-- The pairs of an argument and its parameter. -/
def argPairs (fn : Function) (inst : Inst) : List (ValueId × ValueId) :=
  inst.args.zip (fn.blocks.getD inst.a {}).params

/-- What the check of the arguments gives. -/
theorem checkArgTypes_eq_nil {fn : Function} {loc : String} {i : Nat} {args : List Nat}
    {params : List ValueId} (h : checkArgTypes fn loc i args params = []) :
    ∀ p ∈ args.zip params, valueOk fn p.1 = true ∧ fn.valueType p.1 = fn.valueType p.2 := by
  induction args generalizing i params with
  | nil => simp
  | cons arg args ih =>
    cases params with
    | nil => simp
    | cons param params =>
      rw [checkArgTypes, List.append_eq_nil_iff] at h
      obtain ⟨hhead, htail⟩ := h
      intro p hp
      rcases List.mem_cons.mp hp with rfl | hp
      · split_ifs at hhead with hok htype
        simp only [Bool.not_eq_true', Bool.not_eq_false, bne_iff_ne, ne_eq, not_not] at hok htype
        exact ⟨hok, htype⟩
      · exact ih htail p hp

namespace JumpAt

variable {module : Module} {fn : Function} {b : BlockId} {block target : Block} {inst : Inst}

theorem getD_dest (h : JumpAt module fn b block inst target) :
    fn.blocks.getD inst.a {} = target := by
  rw [List.getD_eq_getElem?_getD, h.dest, Option.getD_some]

theorem target_mem (h : JumpAt module fn b block inst target) : target ∈ fn.blocks :=
  List.mem_of_getElem? h.dest

theorem getElem?_last (h : JumpAt module fn b block inst target) :
    block.insts[block.insts.length - 1]? = some inst := by
  rw [← List.getLast?_eq_getElem?, h.last]

theorem length_pos (h : JumpAt module fn b block inst target) : 0 < block.insts.length :=
  List.length_pos_of_mem (List.mem_of_getElem? h.getElem?_last)

/-- The arguments have passed their check. -/
theorem checked (h : JumpAt module fn b block inst target) :
    target.params.length = inst.args.length ∧
      ∃ loc, checkArgTypes fn loc 0 inst.args target.params = [] := by
  obtain ⟨sig, loc, -, hcheck⟩ := h.accepted.checkInst_eq_nil h.source
    (List.mem_of_getElem? h.getElem?_last)
  simp only [checkInst, h.op, checkBlockArgs, h.dest] at hcheck
  split_ifs at hcheck with hlen
  exact ⟨by simpa using hlen, _, hcheck⟩

theorem args_length (h : JumpAt module fn b block inst target) :
    target.params.length = inst.args.length := h.checked.1

theorem types (h : JumpAt module fn b block inst target) :
    ∀ p ∈ argPairs fn inst, valueOk fn p.1 = true ∧ fn.valueType p.1 = fn.valueType p.2 := by
  obtain ⟨-, loc, hcheck⟩ := h.checked
  rw [argPairs, h.getD_dest]
  exact checkArgTypes_eq_nil hcheck

/-- Every parameter of the target gets an argument. -/
theorem map_snd (h : JumpAt module fn b block inst target) :
    (argPairs fn inst).map Prod.snd = target.params := by
  rw [argPairs, h.getD_dest, List.map_snd_zip h.args_length.le]

theorem param_mem (h : JumpAt module fn b block inst target) {p : ValueId × ValueId}
    (hp : p ∈ argPairs fn inst) : p.2 ∈ target.params :=
  h.map_snd ▸ List.mem_map.mpr ⟨p, hp, rfl⟩

theorem arg_mem {p : ValueId × ValueId} (hp : p ∈ argPairs fn inst) : p.1 ∈ inst.args :=
  (List.of_mem_zip hp).1

theorem nodup (h : JumpAt module fn b block inst target) : target.params.Nodup :=
  (List.nodup_flatMap.mp h.distinct).1 target h.target_mem

end JumpAt

end Mirage
