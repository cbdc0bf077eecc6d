import Mirage.Lib.DominatorLoop
import Mirage.Mir.Verify

/-!
# The control-flow analysis of the structured emission

`build_cfg` numbers the blocks of a function in reverse post-order, finds their immediate
dominators, and sorts their edges: one that does not lead ahead makes its target a loop header,
and has to lead to a dominator for the function to be reducible; two that lead ahead
make their target a merge node.

`UINT32_MAX`, the number or the dominator of a block that cannot be reached, is `none` here.
The loops take a number of steps that they are given, and fail when it runs out.

* `buildCfg_correct`: they end, with the immediate dominators of the blocks that can be
  reached. The function is found reducible exactly when every edge to a block that is not
  numbered higher leads to a dominator, which it does or does not whatever the order of the
  successors.
-/

namespace Mirage.Wasm

open DepthFirst Dominators

/-- What `build_cfg` finds out. -/
structure Analysis where
  succ : BlockId → List BlockId
  rpoIndex : BlockId → Option Nat
  rpoOrder : List BlockId
  idom : BlockId → Option BlockId
  isLoopHeader : BlockId → Bool
  isMerge : BlockId → Bool
  mergeChildren : BlockId → List BlockId
  reducible : Bool

/-- The blocks that have a number. -/
def reachableBlocks (fn : Function) (order : List BlockId) : List BlockId :=
  (List.range fn.blocks.length).filter fun b => b ∈ order

/-- The predecessors of a block, once for each edge. -/
def predecessors (fn : Function) (order : List BlockId) (s : BlockId) : List BlockId :=
  (reachableBlocks fn order).flatMap fun b => ((fn.successors b).filter (· = s)).map fun _ => b

/-- What is found out edge by edge. -/
structure Edges where
  reducible : Bool
  isLoopHeader : BlockId → Bool
  forwardIn : BlockId → Nat

/-- One edge. -/
def sortEdge (fuel : Nat) (order : List BlockId) (idom : BlockId → Option BlockId) (b : BlockId)
    (e : Edges) (s : BlockId) : Option Edges :=
  if order.idxOf s ≤ order.idxOf b then do
    let dominated ← dominates 0 idom fuel s b
    some { e with
      reducible := e.reducible && dominated
      isLoopHeader := Function.update e.isLoopHeader s true }
  else some { e with forwardIn := Function.update e.forwardIn s (e.forwardIn s + 1) }

/-- All the edges of the blocks that can be reached. -/
def sortEdges (fuel : Nat) (fn : Function) (order : List BlockId)
    (idom : BlockId → Option BlockId) : Option Edges :=
  (reachableBlocks fn order).foldlM
    (fun e b => (fn.successors b).foldlM (sortEdge fuel order idom b) e)
    ⟨true, fun _ => false, fun _ => 0⟩

/-- What is known of the blocks when the edges are sorted. -/
def analysis (fn : Function) (order : List BlockId) (idom : BlockId → Option BlockId)
    (e : Edges) : Analysis :=
  let isMerge := fun b => decide (b ∈ order) && decide (2 ≤ e.forwardIn b)
  { succ := fn.successors
    rpoIndex := fun b => if b ∈ order then some (order.idxOf b) else none
    rpoOrder := order
    idom
    isLoopHeader := e.isLoopHeader
    isMerge
    mergeChildren := fun d => order.filter fun b => b ≠ 0 && isMerge b && idom b = some d
    reducible := e.reducible }

/-- The analysis of a function. -/
def buildCfg (fuel : Nat) (fn : Function) : Option Analysis := do
  let order ← search fn.successors fuel (start 0)
  let idom ← solve fuel 0 order.idxOf (predecessors fn order) order fuel (initial 0)
  let e ← sortEdges fuel fn order idom
  some (analysis fn order idom e)

/-- An edge between blocks that can be reached, to one that is not numbered higher. -/
def Analysis.Retreating (cfg : Analysis) (b s : BlockId) : Prop :=
  s ∈ cfg.succ b ∧ ∃ i j, cfg.rpoIndex b = some i ∧ cfg.rpoIndex s = some j ∧ j ≤ i

/-- There is an entry block, and every target of a terminator is a block of the function. -/
structure WellTargeted (fn : Function) : Prop where
  entry : 0 < fn.blocks.length
  target : ∀ b, ∀ s ∈ fn.successors b, s < fn.blocks.length

/-- It is enough to look at the blocks of the function. -/
theorem wellTargeted_of_blocks {fn : Function} (hentry : 0 < fn.blocks.length)
    (h : ∀ block ∈ fn.blocks, ∀ s ∈ block.successors, s < fn.blocks.length) :
    WellTargeted fn := by
  refine ⟨hentry, fun b s hs => ?_⟩
  rw [Function.successors, List.getD_eq_getElem?_getD] at hs
  rcases hb : fn.blocks[b]? with _ | block
  · rw [hb] at hs
    exact absurd hs List.not_mem_nil
  · rw [hb] at hs
    exact h block (List.mem_of_getElem? hb) s hs

/-- The targets of an instruction the verifier accepts are blocks of the function. -/
theorem successors_lt {module : Module} {fn : Function} {sig : Signature} {inst : Inst}
    {loc : String} (h : Verifier.checkInst module fn sig inst loc = []) {s : BlockId}
    (hs : s ∈ inst.successors) : s < fn.blocks.length := by
  have htarget : ∀ {dst : BlockId} {args : List Nat} {site : String},
      Verifier.checkBlockArgs fn dst args site = [] → dst < fn.blocks.length := by
    intro dst args site hargs
    by_contra hge
    rw [Verifier.checkBlockArgs, List.getElem?_eq_none (not_lt.1 hge)] at hargs
    exact absurd hargs (by simp)
  rw [Inst.successors] at hs
  split at hs
  · rename_i hop
    simp only [Verifier.checkInst, hop] at h
    exact List.mem_singleton.1 hs ▸ htarget h
  · rename_i hop
    simp only [Verifier.checkInst, hop, List.append_eq_nil_iff] at h
    rcases List.mem_cons.1 hs with rfl | hs
    · exact htarget h.1.2
    · exact List.mem_singleton.1 hs ▸ htarget h.2
  · rename_i hop
    simp only [Verifier.checkInst, hop, List.append_eq_nil_iff] at h
    rcases List.mem_cons.1 hs with rfl | hs
    · exact htarget h.1.2
    · have hcases := h.2
      split_ifs at hcases
      exact htarget (List.flatMap_eq_nil_iff.1 hcases s hs)
  · exact absurd hs List.not_mem_nil

/-- A body that the verifier accepts has its targets. -/
theorem wellTargeted_of_accepted {module : Module} {fn : Function} (h : fn.Accepted module)
    (hentry : 0 < fn.blocks.length) : WellTargeted fn := by
  refine wellTargeted_of_blocks hentry fun block hblock s hs => ?_
  obtain ⟨bi, hbi⟩ := List.mem_iff_getElem?.1 hblock
  rw [Block.successors] at hs
  split at hs
  · rename_i term hterm
    obtain ⟨sig, loc, -, hcheck⟩ := h.checkInst_eq_nil hbi (List.mem_of_getLast? hterm)
    exact successors_lt hcheck hs
  · exact absurd hs List.not_mem_nil

section

variable {fn : Function} {order : List BlockId}

/-- The numbered blocks are blocks of the function. -/
theorem lt_of_mem_order (h : WellTargeted fn) (hl : Numbered fn.successors 0 order) {b : BlockId}
    (hb : b ∈ order) : b < fn.blocks.length := by
  by_cases hroot : b = 0
  · exact hroot ▸ h.entry
  · obtain ⟨p, hp⟩ := hl.entered b hb hroot
    exact h.target p b hp.1

theorem mem_reachableBlocks (h : WellTargeted fn) (hl : Numbered fn.successors 0 order)
    {b : BlockId} : b ∈ reachableBlocks fn order ↔ b ∈ order := by
  rw [reachableBlocks, List.mem_filter, List.mem_range, decide_eq_true_eq, and_iff_right_iff_imp]
  exact lt_of_mem_order h hl

theorem mem_predecessors (h : WellTargeted fn) (hl : Numbered fn.successors 0 order)
    (v p : BlockId) : p ∈ predecessors fn order v ↔ p ∈ order ∧ v ∈ fn.successors p := by
  rw [predecessors, List.mem_flatMap]
  constructor
  · rintro ⟨b, hb, hp⟩
    obtain ⟨s, hs, rfl⟩ := List.mem_map.1 hp
    obtain ⟨hs, hv⟩ := List.mem_filter.1 hs
    exact ⟨(mem_reachableBlocks h hl).1 hb, of_decide_eq_true hv ▸ hs⟩
  · rintro ⟨hp, hv⟩
    refine ⟨p, (mem_reachableBlocks h hl).2 hp, List.mem_map.2 ⟨v, ?_, rfl⟩⟩
    exact List.mem_filter.2 ⟨hv, decide_eq_true rfl⟩

/-! ### The edges -/

/-- The edges of some blocks that do not lead ahead lead to dominators. -/
def AllBack (fn : Function) (order : List BlockId) (b : BlockId) (ss : List BlockId) : Prop :=
  ∀ s ∈ ss, order.idxOf s ≤ order.idxOf b → Dominates fn.successors 0 s b

variable {idom : BlockId → Option BlockId}

/-- An edge is sorted. -/
theorem sortEdge_eq (h : WellTargeted fn) (hl : Numbered fn.successors 0 order)
    (hfixed : Fixed fn.successors 0 order (predecessors fn order) idom) {b : BlockId}
    (hb : b ∈ order) (e : Edges) (s : BlockId) :
    ∃ e', (∀ fuel ≥ order.length, sortEdge fuel order idom b e s = some e') ∧
      (e'.reducible = true ↔ e.reducible = true ∧ AllBack fn order b [s]) := by
  classical
  by_cases hle : order.idxOf s ≤ order.idxOf b
  · have hwalk : ∀ fuel ≥ order.length,
        dominates 0 idom fuel s b = some (decide (Dominates fn.successors 0 s b)) := by
      intro fuel hfuel
      have hlt := List.idxOf_lt_length_of_mem hb
      obtain ⟨r, hr, hiff⟩ := hfixed.dominates_eq (mem_predecessors h hl) hl s hb
        (hlt.le.trans hfuel)
      rw [hr, Option.some.injEq, Bool.eq_iff_iff, decide_eq_true_eq]
      exact hiff
    refine ⟨{ e with
      reducible := e.reducible && decide (Dominates fn.successors 0 s b)
      isLoopHeader := Function.update e.isLoopHeader s true }, fun fuel hfuel => ?_, ?_⟩
    · rw [sortEdge, if_pos hle, hwalk fuel hfuel]
      rfl
    · rw [Bool.and_eq_true, decide_eq_true_eq, AllBack, List.forall_mem_singleton]
      exact and_congr_right fun _ => ⟨fun hd _ => hd, fun hd => hd hle⟩
  · refine ⟨_, fun fuel _ => if_neg hle, ?_⟩
    rw [AllBack, List.forall_mem_singleton]
    exact (and_iff_left fun hle' => absurd hle' hle).symm

/-- And so are the edges of a block. -/
theorem sortBlock_eq (h : WellTargeted fn) (hl : Numbered fn.successors 0 order)
    (hfixed : Fixed fn.successors 0 order (predecessors fn order) idom) {b : BlockId}
    (hb : b ∈ order) :
    ∀ (ss : List BlockId) (e : Edges),
      ∃ e', (∀ fuel ≥ order.length, ss.foldlM (sortEdge fuel order idom b) e = some e') ∧
        (e'.reducible = true ↔ e.reducible = true ∧ AllBack fn order b ss) := by
  intro ss
  induction ss with
  | nil =>
    intro e
    exact ⟨e, fun _ _ => rfl, (and_iff_left fun s hs => absurd hs List.not_mem_nil).symm⟩
  | cons s ss ih =>
    intro e
    obtain ⟨e', hedge, hiff⟩ := sortEdge_eq h hl hfixed hb e s
    obtain ⟨e'', hrest, hiff'⟩ := ih e'
    refine ⟨e'', fun fuel hfuel => ?_, ?_⟩
    · rw [List.foldlM_cons, hedge fuel hfuel]
      exact hrest fuel hfuel
    · rw [hiff', hiff, and_assoc, AllBack, AllBack, AllBack, List.forall_mem_singleton,
        List.forall_mem_cons]

/-- And the edges of all blocks. -/
theorem sortEdges_eq (h : WellTargeted fn) (hl : Numbered fn.successors 0 order)
    (hfixed : Fixed fn.successors 0 order (predecessors fn order) idom) :
    ∃ e, (∀ fuel ≥ order.length, sortEdges fuel fn order idom = some e) ∧
      (e.reducible = true ↔ ∀ b ∈ order, AllBack fn order b (fn.successors b)) := by
  have hrun : ∀ (bs : List BlockId) (e : Edges), (∀ b ∈ bs, b ∈ order) →
      ∃ e', (∀ fuel ≥ order.length, bs.foldlM
          (fun e b => (fn.successors b).foldlM (sortEdge fuel order idom b) e) e = some e') ∧
        (e'.reducible = true ↔
          e.reducible = true ∧ ∀ b ∈ bs, AllBack fn order b (fn.successors b)) := by
    intro bs
    induction bs with
    | nil =>
      intro e _
      exact ⟨e, fun _ _ => rfl, (and_iff_left fun b hb => absurd hb List.not_mem_nil).symm⟩
    | cons b bs ih =>
      intro e hbs
      obtain ⟨hb, hbs⟩ := List.forall_mem_cons.1 hbs
      obtain ⟨e', hblock, hiff⟩ := sortBlock_eq h hl hfixed hb (fn.successors b) e
      obtain ⟨e'', hrest, hiff'⟩ := ih e' hbs
      refine ⟨e'', fun fuel hfuel => ?_, ?_⟩
      · rw [List.foldlM_cons, hblock fuel hfuel]
        exact hrest fuel hfuel
      · rw [hiff', hiff, and_assoc, List.forall_mem_cons]
  obtain ⟨e, he, hiff⟩ := hrun (reachableBlocks fn order) ⟨true, fun _ => false, fun _ => 0⟩
    fun b hb => (mem_reachableBlocks h hl).1 hb
  refine ⟨e, he, hiff.trans ?_⟩
  rw [and_iff_right rfl]
  exact forall_congr' fun b => imp_congr_left (mem_reachableBlocks h hl)

end

/-! ### The analysis -/

/-- The analysis ends. -/
theorem buildCfg_eq {fn : Function} (h : WellTargeted fn) :
    ∃ order idom e n, (∀ fuel ≥ n, buildCfg fuel fn = some (analysis fn order idom e)) ∧
      Numbered fn.successors 0 order ∧
      Fixed fn.successors 0 order (predecessors fn order) idom ∧
      (e.reducible = true ↔ ∀ b ∈ order, AllBack fn order b (fn.successors b)) := by
  have hclosed : ∀ v ∈ Finset.range fn.blocks.length, ∀ w ∈ fn.successors v,
      w ∈ Finset.range fn.blocks.length := fun v _ w hw =>
    Finset.mem_range.2 (h.target v w hw)
  obtain ⟨order, n, hl, hsearch⟩ := search_finishes hclosed (Finset.mem_range.2 h.entry)
  have hpreds := mem_predecessors h hl
  have hsolve : ∀ fuel, 2 * order.length ≤ fuel → ∀ k, weight order (initial 0) < k →
      ∃ up, solve fuel 0 order.idxOf (predecessors fn order) order k (initial 0) = some up ∧
        Fixed fn.successors 0 order (predecessors fn order) up := fun _ hfuel _ hk =>
    solve_finishes hl hpreds hfuel hk
  obtain ⟨idom, -, hfixed⟩ := hsolve _ le_rfl _ (Nat.lt_succ_self _)
  obtain ⟨e, hedges, hred⟩ := sortEdges_eq h hl hfixed
  refine ⟨order, idom, e, n + (2 * order.length + (weight order (initial 0) + 1)),
    fun fuel hfuel => ?_, hl, hfixed, hred⟩
  obtain ⟨idom', hidom', hfixed'⟩ := hsolve fuel (by omega) fuel (by omega)
  rw [buildCfg, hsearch fuel (by omega)]
  show (solve fuel 0 order.idxOf (predecessors fn order) order fuel (initial 0)).bind _ = _
  rw [hidom', hfixed'.unique hpreds hl hfixed]
  show (sortEdges fuel fn order idom).bind _ = _
  rw [hedges fuel (by omega)]
  rfl

/-- A retreating edge is one that does not lead ahead in the order. -/
theorem retreating_iff {fn : Function} {order : List BlockId}
    {idom : BlockId → Option BlockId} {e : Edges} (hl : Numbered fn.successors 0 order)
    {b s : BlockId} : (analysis fn order idom e).Retreating b s ↔
      b ∈ order ∧ s ∈ fn.successors b ∧ order.idxOf s ≤ order.idxOf b := by
  constructor
  · rintro ⟨hs, i, j, hi, hj, hle⟩
    obtain ⟨hb, hi⟩ := Option.ite_none_right_eq_some.1 hi
    obtain ⟨-, hj⟩ := Option.ite_none_right_eq_some.1 hj
    obtain rfl := Option.some.inj hi
    obtain rfl := Option.some.inj hj
    exact ⟨hb, hs, hle⟩
  · rintro ⟨hb, hs, hle⟩
    exact ⟨hs, _, _, if_pos hb, if_pos (hl.closed b hb s hs), hle⟩

/-- The analysis ends, with the immediate dominators of the blocks that can be reached. It finds
    the function reducible exactly when every retreating edge leads to a dominator, and finds
    the same for every function with the same edges. -/
theorem buildCfg_correct {fn : Function} (h : WellTargeted fn) :
    ∃ (cfg : Analysis) (n : Nat), (∀ fuel ≥ n, buildCfg fuel fn = some cfg) ∧
      (∀ b, Reachable fn.successors 0 b → b ≠ 0 →
        ∃ d, cfg.idom b = some d ∧ ImmediateDominator fn.successors 0 d b) ∧
      (cfg.reducible = true ↔
        ∀ b s, cfg.Retreating b s → Dominates fn.successors 0 s b) ∧
      (cfg.reducible = true ↔ Reducible fn.successors 0) ∧
      ∀ fn' : Function, WellTargeted fn' →
        (∀ b s, s ∈ fn.successors b ↔ s ∈ fn'.successors b) →
        ∃ (cfg' : Analysis) (n' : Nat), (∀ fuel ≥ n', buildCfg fuel fn' = some cfg') ∧
          cfg'.reducible = cfg.reducible := by
  obtain ⟨order, idom, e, n, hbuild, hl, hfixed, hred⟩ := buildCfg_eq h
  have hreducible : e.reducible = true ↔ Reducible fn.successors 0 :=
    hred.trans (reducible_iff hl)
  refine ⟨_, n, hbuild, fun b hb hne => ?_, hred.trans ⟨fun hall b s hbs => ?_,
    fun hall b hb s hs hle => ?_⟩, hreducible, fun fn' h' hedges => ?_⟩
  · exact hfixed.immediate (mem_predecessors h hl) hl ((mem_iff_reachable hl).2 hb) hne
  · obtain ⟨hb, hs, hle⟩ := (retreating_iff hl).1 hbs
    exact hall b hb s hs hle
  · exact hall b s ((retreating_iff hl).2 ⟨hb, hs, hle⟩)
  · obtain ⟨order', idom', e', n', hbuild', hl', -, hred'⟩ := buildCfg_eq h'
    refine ⟨_, n', hbuild', Bool.eq_iff_iff.2 ?_⟩
    show e'.reducible = true ↔ e.reducible = true
    rw [hreducible, hred'.trans (reducible_iff hl')]
    exact ⟨Reducible.congr fun x y => (hedges x y).symm, Reducible.congr hedges⟩

/-- A loop of three blocks that is left from its second one. -/
def whileLoop : Function where
  blocks :=
    [ { insts := [{ op := .jump, a := 1 }] },
      { insts := [{ op := .branch, a := 0, b := 2, c := 3 }] },
      { insts := [{ op := .jump, a := 1 }] },
      { insts := [{ op := .ret }] } ]

/-- The analysis of the loop. -/
theorem whileLoop_correct :
    ∃ (cfg : Analysis) (n : Nat), (∀ fuel ≥ n, buildCfg fuel whileLoop = some cfg) ∧
      (∀ b, Reachable whileLoop.successors 0 b → b ≠ 0 →
        ∃ d, cfg.idom b = some d ∧ ImmediateDominator whileLoop.successors 0 d b) ∧
      (cfg.reducible = true ↔
        ∀ b s, cfg.Retreating b s → Dominates whileLoop.successors 0 s b) ∧
      (cfg.reducible = true ↔ Reducible whileLoop.successors 0) ∧
      ∀ fn' : Function, WellTargeted fn' →
        (∀ b s, s ∈ whileLoop.successors b ↔ s ∈ fn'.successors b) →
        ∃ (cfg' : Analysis) (n' : Nat), (∀ fuel ≥ n', buildCfg fuel fn' = some cfg') ∧
          cfg'.reducible = cfg.reducible :=
  buildCfg_correct (wellTargeted_of_blocks (by decide) (by decide))

example : (buildCfg 20 whileLoop).map (fun cfg => ((List.range 4).map cfg.idom, cfg.reducible)) =
    some ([some 0, some 0, some 1, some 1], true) := by
  decide

/-- Two blocks that jump to each other, both entered from the first one. -/
example : (buildCfg 20
    { blocks :=
        [ { insts := [{ op := .branch, a := 0, b := 1, c := 2 }] },
          { insts := [{ op := .jump, a := 2 }] },
          { insts := [{ op := .jump, a := 1 }] } ] }).map
    (fun cfg => ((List.range 3).map cfg.idom, cfg.reducible)) =
    some ([some 0, some 0, some 0], false) := by
  decide

end Mirage.Wasm
