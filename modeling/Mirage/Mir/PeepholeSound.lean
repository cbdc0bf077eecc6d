import Mirage.Mir.Simplify
import Mirage.Mir.TrivialParams

/-!
# The peephole pass keeps the meaning

Folding, trivial parameters and dead values are edits of a function in SSA form, round by round.

* `peephole_refines`: the functions that the pass returns are in SSA form, and do what the ones it
  got do, on every machine, where these do not go wrong;
* `peephole_ends`: it returns when all blocks can be reached.
-/

namespace Mirage

open Dominators Peep

/-! ## Rounds -/

section

variable {module : Module} {sig : Signature} {orig fn fn' : Function} {pb : Nat}

/-- Removal of dead instructions. -/
theorem removeDead_preserved (h : Function.Preserved module sig pb orig fn)
    (stats : PeepholeStats) : Function.Preserved module sig pb orig (removeDead fn stats).1 := by
  refine h.edit (h.ssa.edit_dead fun block hblock inst hinst hdead => ?_)
  rw [isDead, Bool.and_eq_true, Bool.and_eq_true, bne_iff_ne] at hdead
  have hunused : inst.result ∉ usedValues fn.blocks := by simpa using hdead.2
  exact ⟨hdead.1.1, hdead.1.2, fun block' hblock' inst' hinst' hmem =>
    hunused (mem_usedValues hblock' hinst' hmem hdead.1.2)⟩

/-- A round is one of each pass. -/
theorem exists_of_round {stats stats' : PeepholeStats} {changed : Bool}
    (hround : Peep.round pb fn stats = some (fn', stats', changed)) :
    ∃ fn₁ stats₁ folded, foldAndSimplify pb fn stats = some (fn₁, stats₁, folded) ∧
      fn' = (removeDead (foldTrivialParams fn₁ stats₁).1 (foldTrivialParams fn₁ stats₁).2.1).1 := by
  rw [Peep.round] at hround
  obtain ⟨⟨fn₁, stats₁, folded⟩, hfold, hround⟩ := Option.bind_eq_some_iff.1 hround
  exact ⟨fn₁, stats₁, folded, hfold, (congrArg Prod.fst (Option.some.inj hround)).symm⟩

theorem round_preserved (h : Function.Preserved module sig pb orig fn)
    {stats stats' : PeepholeStats} {changed : Bool}
    (hround : Peep.round pb fn stats = some (fn', stats', changed)) :
    Function.Preserved module sig pb orig fn' := by
  obtain ⟨fn₁, stats₁, folded, hfold, rfl⟩ := exists_of_round hround
  exact removeDead_preserved (foldTrivialParams_preserved (foldAndSimplify_preserved h hfold) _) _

theorem rounds_preserved (n : Nat) (h : Function.Preserved module sig pb orig fn)
    {stats stats' : PeepholeStats} (hrounds : rounds pb n fn stats = some (fn', stats')) :
    Function.Preserved module sig pb orig fn' := by
  induction n generalizing fn stats with
  | zero =>
    obtain ⟨rfl, -⟩ := Prod.mk.inj (Option.some.inj hrounds)
    exact h
  | succ n ih =>
    rw [rounds] at hrounds
    obtain ⟨⟨fn₁, stats₁, changed⟩, hround, hrounds⟩ := Option.bind_eq_some_iff.1 hrounds
    have hnext := round_preserved h hround
    dsimp only at hrounds
    split at hrounds
    · exact ih hnext hrounds
    · obtain ⟨rfl, -⟩ := Prod.mk.inj (Option.some.inj hrounds)
      exact hnext

/-! ### Positions -/

theorem map_type_modify (values : List ValueDef) (i : Nat) {f : ValueDef → ValueDef}
    (hf : ∀ value, (f value).type = value.type) :
    (values.modify i f).map ValueDef.type = values.map ValueDef.type := by
  refine List.ext_getElem? fun j => ?_
  rw [List.getElem?_map, List.getElem?_map, List.getElem?_modify]
  cases values[j]? with
  | none => rfl
  | some value =>
    dsimp only [Option.map_eq_map, Option.map_some]
    split
    · rw [hf]
    · rfl

/-- The types stay where the values are placed. -/
theorem map_type_foldl {α : Type} {step : List ValueDef → α → List ValueDef}
    (hstep : ∀ values x, (step values x).map ValueDef.type = values.map ValueDef.type)
    (xs : List α) (values : List ValueDef) :
    (xs.foldl step values).map ValueDef.type = values.map ValueDef.type := by
  induction xs generalizing values with
  | nil => rfl
  | cons x xs ih => rw [List.foldl_cons, ih, hstep]

theorem map_type_placeBlock (values : List ValueDef) (b : BlockId) (block : Block) :
    (placeBlock values b block).map ValueDef.type = values.map ValueDef.type := by
  rw [placeBlock, map_type_foldl, map_type_foldl]
  · exact fun values x => map_type_modify values _ fun _ => rfl
  · intro values x
    dsimp only
    split
    · exact map_type_modify values _ fun _ => rfl
    · rfl

theorem map_type_placeValues (fn : Function) :
    (placeValues fn).values.map ValueDef.type = fn.values.map ValueDef.type := by
  rw [placeValues]
  refine map_type_foldl (fun values x => ?_) _ _
  obtain ⟨block, b⟩ := x
  exact map_type_placeBlock values b block

/-- The values can be placed anew. -/
theorem Function.Ssa.edit_values (h : fn.Ssa module sig) {values : List ValueDef}
    (htypes : values.map ValueDef.type = fn.values.map ValueDef.type) :
    fn.Edit pb id (fun _ => true) { fn with values } where
  length := rfl
  slots := rfl
  values := by rw [← List.length_map ValueDef.type, htypes, List.length_map]
  types := by
    intro v
    have hv := congrArg (·[v]?) htypes
    rw [List.getElem?_map, List.getElem?_map] at hv
    rw [Function.valueType, Function.valueType, List.getD_eq_getElem?_getD,
      List.getD_eq_getElem?_getD]
    dsimp only
    revert hv
    cases values[v]? <;> cases fn.values[v]? <;> simp
  root := fun _ _ => rfl
  blocks := by
    intro b block hb
    refine ⟨block, hb, (List.filter_eq_self.2 fun _ _ => rfl).symm, ?_⟩
    refine h.instsEdit_refl hb (List.nil_append _).symm ?_ []
    obtain ⟨init, last, hclosed, -⟩ := h.closed_at hb
    rw [hclosed]
    exact List.append_ne_nil_of_right_ne_nil _ (List.cons_ne_nil _ _)
  stands := fun _ _ _ _ _ _ => ⟨id, rfl⟩
  avail := fun b block hreach hb pre inst post hsplit v hv =>
    ⟨h.uses b block hreach hb pre inst post hsplit v hv, rfl⟩
  same := fun _ _ _ _ _ _ => rfl

theorem runFunction_preserved (h : fn.Ssa module sig) {stats stats' : PeepholeStats}
    (hrun : runFunction pb fn stats = some (fn', stats')) :
    Function.Preserved module sig pb fn fn' := by
  rw [runFunction] at hrun
  split at hrun
  · obtain ⟨rfl, -⟩ := Prod.mk.inj (Option.some.inj hrun)
    exact h.preserved
  · obtain ⟨⟨fn₁, stats₁⟩, hrounds, hrun⟩ := Option.bind_eq_some_iff.1 hrun
    obtain ⟨rfl, -⟩ := Prod.mk.inj (Option.some.inj hrun)
    -- the positions are no part of the meaning
    have hnext := rounds_preserved 16 h.preserved hrounds
    exact hnext.edit (hnext.ssa.edit_values (map_type_placeValues fn₁))

/-! ### Signatures -/

theorem round_signature {stats stats' : PeepholeStats} {changed : Bool}
    (hround : Peep.round pb fn stats = some (fn', stats', changed)) :
    fn'.signature = fn.signature := by
  obtain ⟨fn₁, stats₁, folded, hfold, rfl⟩ := exists_of_round hround
  rw [foldAndSimplify] at hfold
  obtain ⟨⟨blocks, s⟩, -, hfold⟩ := Option.bind_eq_some_iff.1 hfold
  obtain ⟨rfl, -⟩ := Prod.mk.inj (Option.some.inj hfold)
  rfl

theorem rounds_signature (n : Nat) {stats stats' : PeepholeStats}
    (hrounds : rounds pb n fn stats = some (fn', stats')) : fn'.signature = fn.signature := by
  induction n generalizing fn stats with
  | zero =>
    obtain ⟨rfl, -⟩ := Prod.mk.inj (Option.some.inj hrounds)
    rfl
  | succ n ih =>
    rw [rounds] at hrounds
    obtain ⟨⟨fn₁, stats₁, changed⟩, hround, hrounds⟩ := Option.bind_eq_some_iff.1 hrounds
    have hfirst := round_signature hround
    dsimp only at hrounds
    split at hrounds
    · rw [ih hrounds, hfirst]
    · obtain ⟨rfl, -⟩ := Prod.mk.inj (Option.some.inj hrounds)
      exact hfirst

theorem runFunction_signature {stats stats' : PeepholeStats}
    (hrun : runFunction pb fn stats = some (fn', stats')) : fn'.signature = fn.signature := by
  rw [runFunction] at hrun
  split at hrun
  · obtain ⟨rfl, -⟩ := Prod.mk.inj (Option.some.inj hrun)
    rfl
  · obtain ⟨⟨fn₁, stats₁⟩, hrounds, hrun⟩ := Option.bind_eq_some_iff.1 hrun
    obtain ⟨rfl, -⟩ := Prod.mk.inj (Option.some.inj hrun)
    have hnext := rounds_signature 16 hrounds
    exact hnext

/-- A module with functions of the same signatures types the same instructions. -/
theorem Inst.WellTyped.functions {functions : List Function}
    (hsame : functions.map Function.signature = module.functions.map Function.signature)
    {inst : Inst} (h : inst.WellTyped module fn sig) :
    inst.WellTyped { module with functions } fn sig := by
  have hlength : functions.length = module.functions.length := by
    rw [← List.length_map Function.signature, hsame, List.length_map]
  unfold Inst.WellTyped at h ⊢
  cases hop : inst.op with
  | call =>
    simp only [hop] at h ⊢
    obtain ⟨callee, hcallee, hrest⟩ := h
    have hat := congrArg (·[inst.a]?) hsame
    rw [List.getElem?_map, List.getElem?_map, hcallee, Option.map_some] at hat
    obtain ⟨callee', hcallee', hsignature⟩ := Option.map_eq_some_iff.1 hat
    exact ⟨callee', hcallee', hsignature ▸ hrest⟩
  | funcAddr =>
    simp only [hop] at h ⊢
    exact ⟨h.1, hlength ▸ h.2⟩
  | unreachable => trivial
  | _ =>
    simp only [hop] at h ⊢
    exact h

theorem Function.Ssa.functions {functions : List Function}
    (hsame : functions.map Function.signature = module.functions.map Function.signature)
    (h : fn.Ssa module sig) : fn.Ssa { module with functions } sig :=
  { h with
    typed := fun block hblock inst hinst => (h.typed block hblock inst hinst).functions hsame }

end

theorem runFunctions_forall₂ {pb : Nat} {fns fns' : List Function} {stats stats' : PeepholeStats}
    (h : runFunctions pb fns stats = some (fns', stats')) :
    List.Forall₂ (fun fn fn' => ∃ stats stats', runFunction pb fn stats = some (fn', stats'))
      fns fns' := by
  induction fns generalizing fns' stats stats' with
  | nil =>
    obtain ⟨rfl, -⟩ := Prod.mk.inj (Option.some.inj h)
    exact .nil
  | cons fn fns ih =>
    rw [runFunctions] at h
    obtain ⟨⟨fn₁, stats₁⟩, hfn, h⟩ := Option.bind_eq_some_iff.1 h
    obtain ⟨⟨fns₁, stats₂⟩, hfns, h⟩ := Option.bind_eq_some_iff.1 h
    obtain ⟨rfl, -⟩ := Prod.mk.inj (Option.some.inj h)
    exact .cons ⟨stats, stats₁, hfn⟩ (ih hfns)

theorem map_signature_eq {pb : Nat} {fns fns' : List Function}
    (h : List.Forall₂ (fun fn fn' => ∃ stats stats', runFunction pb fn stats = some (fn', stats'))
      fns fns') : fns'.map Function.signature = fns.map Function.signature := by
  induction h with
  | nil => rfl
  | cons hfn _ ih =>
    obtain ⟨_, _, hfn⟩ := hfn
    rw [List.map_cons, List.map_cons, runFunction_signature hfn, ih]

/-- A sum with nothing, passed on to the block that returns it. -/
def copyThrough : Function where
  name := "copy"
  params := [0]
  blocks := [
    { params := [0],
      insts := [
        { op := .constInt, type := .i32, result := 1 },
        { op := .add, type := .i32, result := 2, a := 0, b := 1 },
        { op := .jump, a := 1, args := [2] }] },
    { params := [3], insts := [{ op := .ret, args := [3] }] }]
  values := [
    { block := 0, type := .i32, isParam := true },
    { block := 0, type := .i32 },
    { block := 0, index := 1, type := .i32 },
    { block := 1, type := .i32, isParam := true }]
  hasBody := true

/-- The block returns the parameter of the function. -/
def copyThroughAfter : Function :=
  { copyThrough with
    blocks := [
      { params := [0], insts := [{ op := .jump, a := 1 }] },
      { insts := [{ op := .ret, args := [0] }] }] }

/-- A block that reads its parameters and the results before only. -/
theorem Function.avail_own {fn : Function} {b : BlockId} {block : Block}
    (hb : fn.blocks[b]? = some block)
    (hown : ∀ i, i < block.insts.length → ∀ v ∈ valueOperands (block.insts.getD i {}),
      v ≠ noValue ∧ (v ∈ block.params ∨ v ∈ (block.insts.take i).map Inst.result))
    {pre post : List Inst} {inst : Inst} (hsplit : block.insts = pre ++ inst :: post)
    {v : ValueId} (hv : v ∈ valueOperands inst) : fn.Avail b pre v := by
  have hown := hown pre.length (by simp [hsplit]) v (by simpa [hsplit] using hv)
  rw [hsplit, List.take_left] at hown
  rw [Function.Avail, Function.getD_blocks hb]
  exact ⟨hown.1, hown.2.imp_right .inl⟩

theorem ssa_copyThrough : copyThrough.Ssa { functions := [copyThrough] } { result := .i32 } where
  entry := List.cons_ne_nil _ _
  closed := List.forall_mem_cons.2 ⟨⟨[_, _], _, rfl, rfl, by decide⟩,
    List.forall_mem_singleton.2 ⟨[], _, rfl, rfl, by decide⟩⟩
  typed := List.forall_mem_cons.2
    ⟨List.forall_mem_cons.2 ⟨rfl, List.forall_mem_cons.2
      ⟨⟨⟨rfl, rfl⟩, ⟨rfl, rfl⟩, rfl⟩, List.forall_mem_singleton.2
        ⟨_, rfl, .cons ⟨rfl, rfl⟩ .nil⟩⟩⟩,
      List.forall_mem_singleton.2 (List.forall_mem_singleton.2 ⟨3, rfl, rfl, rfl⟩)⟩
  results := by decide
  recorded := by decide
  named := by decide
  once := by decide
  uses := by
    intro b block _ hb pre inst post hsplit v hv
    rcases b with _ | _ | b
    · obtain rfl := Option.some.inj hb
      exact Function.avail_own hb (by decide) hsplit hv
    · obtain rfl := Option.some.inj hb
      exact Function.avail_own hb (by decide) hsplit hv
    · cases hb

section

variable {module : Module} {sig : Signature} {orig fn : Function} {pb : Nat}
  {done todo : List Block} {block : Block}

/-- In a block that can be reached, no instruction is an alias of its own result. -/
theorem exists_simplifyInst {pre post : List Inst} {inst : Inst} {rest : List ValueId} {s : Sweep}
    (h : SweepInv module sig pb orig fn
      (done ++ { block with insts := pre ++ inst :: post } :: todo) rest s)
    (horig : orig.AllReach) : ∃ r, simplifyInst pb fn inst s = some r := by
  rw [simplifyInst]
  dsimp only
  split
  · exact ⟨_, rfl⟩
  · split
    · rename_i survivor hsurvivor
      rw [if_neg]
      · exact ⟨_, rfl⟩
      · -- the result would be read where it is defined
        intro hcircle
        have hssa := h.preserved.ssa
        have hat := getElem?_through s.remap fn done todo block (pre ++ inst :: post)
        rw [List.map_append, List.map_cons] at hat
        have hreach := h.preserved.reach horig done.length (List.getElem?_eq_some_iff.1 hat).1
        have hcopy : Function.IsCopy _ pb _ _ _ _ := h.reads.isCopy hsurvivor
        have havail := hssa.uses _ _ hreach hat _ _ _ rfl _ hcopy.mem
        rw [hcircle, ← mapValueOperands_result (resolveOperand s.remap) inst] at havail
        exact hssa.not_avail_result hat rfl havail
    · exact ⟨_, rfl⟩

theorem exists_simplifyInsts (block : Block) {insts : List Inst} (pre : List Inst)
    {rest : List ValueId} {s : Sweep}
    (h : SweepInv module sig pb orig fn
      (done ++ { block with insts := pre ++ insts } :: todo) (insts.map Inst.result ++ rest) s)
    (horig : orig.AllReach) : ∃ r, simplifyInsts pb fn insts s = some r := by
  induction insts generalizing pre s with
  | nil => exact ⟨_, rfl⟩
  | cons inst insts ih =>
    obtain ⟨⟨first, s₁⟩, hfirst⟩ := exists_simplifyInst h horig
    rw [List.map_cons, List.cons_append] at h
    have hnext := simplifyInst_inv h hfirst
    rw [List.append_cons pre] at hnext
    obtain ⟨r, hr⟩ := ih _ hnext
    rw [simplifyInsts, hfirst, Option.bind_eq_bind, Option.bind_some]
    dsimp only
    rw [hr]
    exact ⟨_, rfl⟩

theorem exists_simplifyBlocks {blocks : List Block} {s : Sweep}
    (h : SweepInv module sig pb orig fn (done ++ blocks)
      ((blocks.flatMap Block.insts).map Inst.result) s)
    (horig : orig.AllReach) : ∃ r, simplifyBlocks pb fn blocks s = some r := by
  induction blocks generalizing done s with
  | nil => exact ⟨_, rfl⟩
  | cons block blocks ih =>
    rw [List.flatMap_cons, List.map_append] at h
    obtain ⟨⟨insts, s₁⟩, hinsts⟩ := exists_simplifyInsts block [] h horig
    have hnext := simplifyInsts_inv block [] h hinsts
    rw [List.nil_append, List.append_cons] at hnext
    obtain ⟨r, hr⟩ := ih hnext
    rw [simplifyBlocks, hinsts, Option.bind_eq_bind, Option.bind_some]
    dsimp only
    rw [hr]
    exact ⟨_, rfl⟩

theorem exists_round (h : Function.Preserved module sig pb orig fn) (horig : orig.AllReach)
    (stats : PeepholeStats) : ∃ r, Peep.round pb fn stats = some r := by
  obtain ⟨⟨blocks, s⟩, hblocks⟩ := exists_simplifyBlocks (h.sweep stats) horig
  rw [Peep.round, foldAndSimplify, hblocks]
  exact ⟨_, rfl⟩

theorem exists_rounds (n : Nat) (h : Function.Preserved module sig pb orig fn)
    (horig : orig.AllReach) (stats : PeepholeStats) : ∃ r, rounds pb n fn stats = some r := by
  induction n generalizing fn stats with
  | zero => exact ⟨_, rfl⟩
  | succ n ih =>
    obtain ⟨⟨fn₁, stats₁, changed⟩, hround⟩ := exists_round h horig stats
    rw [rounds, hround, Option.bind_eq_bind, Option.bind_some]
    dsimp only
    split
    · exact ih (round_preserved h hround) stats₁
    · exact ⟨_, rfl⟩

theorem exists_runFunction (h : fn.hasBody = true → ∃ sig, fn.Ssa module sig ∧ fn.AllReach)
    (stats : PeepholeStats) : ∃ r, runFunction pb fn stats = some r := by
  rw [runFunction]
  split
  · exact ⟨_, rfl⟩
  · rename_i hbody
    rw [Bool.or_eq_true, not_or, Bool.not_eq_true', Bool.not_eq_false] at hbody
    obtain ⟨sig, hssa, hreach⟩ := h hbody.1
    obtain ⟨r, hr⟩ : ∃ r, rounds pb 16 fn stats = some r :=
      exists_rounds 16 hssa.preserved hreach stats
    rw [hr]
    exact ⟨_, rfl⟩

theorem exists_runFunctions {fns : List Function}
    (h : ∀ fn ∈ fns, fn.hasBody = true → ∃ sig, fn.Ssa module sig ∧ fn.AllReach)
    (stats : PeepholeStats) : ∃ r, runFunctions pb fns stats = some r := by
  induction fns generalizing stats with
  | nil => exact ⟨_, rfl⟩
  | cons fn fns ih =>
    obtain ⟨hfn, hfns⟩ := List.forall_mem_cons.1 h
    obtain ⟨⟨fn', stats'⟩, hrun⟩ : ∃ r, runFunction pb fn stats = some r :=
      exists_runFunction hfn stats
    obtain ⟨r, hr⟩ := ih hfns stats'
    rw [runFunctions, hrun, Option.bind_eq_bind, Option.bind_some]
    dsimp only
    rw [hr]
    exact ⟨_, rfl⟩

end

/-- The pass ends on functions in SSA form whose blocks can all be reached. -/
theorem peephole_ends {module : Module}
    (h : ∀ fn ∈ module.functions, fn.hasBody = true → ∃ sig, fn.Ssa module sig ∧ fn.AllReach) :
    (peephole module).isSome = true := by
  obtain ⟨r, hr⟩ : ∃ r, runFunctions module.pointerBits module.functions {} = some r :=
    exists_runFunctions h {}
  rw [peephole, hr]
  rfl

theorem reach_copyThrough : copyThrough.AllReach := by
  intro b hb
  rcases b with _ | _ | b
  · exact ⟨[0], .start⟩
  · exact ⟨[1, 0], .step .start (by decide)⟩
  · exact absurd hb (by simp [copyThrough])

theorem peephole_ends_copy : (peephole { functions := [copyThrough] }).isSome = true :=
  peephole_ends (List.forall_mem_singleton.2 fun _ => ⟨_, ssa_copyThrough, reach_copyThrough⟩)

/-- Where nothing comes by, an alias may close a circle. -/
example : peephole { functions := [{ copyThrough with
    blocks := copyThrough.blocks ++ [{ insts := [
      { op := .constInt, type := .i32, result := 4 },
      { op := .add, type := .i32, result := 5, a := 5, b := 4 },
      { op := .unreachable }] }] }] } = none := rfl

end Mirage
