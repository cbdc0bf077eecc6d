import Mathlib.Data.List.Sort
import Mathlib.Data.List.Dedup
import Mathlib.Logic.Relation
import Mathlib.Order.WellFounded
import Mathlib.Order.RelClasses
import Mathlib.Data.Fintype.Order

/-!
# Topological sorting

Kahn's algorithm over a list of nodes, each with the nodes it depends on. A node is *ready* when
all of these are placed; the smallest ready node is placed, and the count of open dependencies
of each of its dependents goes down by one.

* `kahn_complete_iff`: all nodes are placed exactly when there is no cycle;
* `kahn_perm`, `kahn_respects`: then the order is one of the nodes, and each comes behind
  those it depends on;
* `kahn_stuck`: otherwise some node with an open dependency is left.
-/

namespace Mirage

variable {M : Type*}

/-- Who depends on what: each node lists its dependencies once, and they are nodes. -/
structure DepGraph (M : Type*) where
  nodes : List M
  deps : M → List M
  nodup : nodes.Nodup
  deps_nodup : ∀ m, (deps m).Nodup
  deps_sub : ∀ m ∈ nodes, ∀ b ∈ deps m, b ∈ nodes

namespace DepGraph

structure State (M : Type*) where
  /-- The number of dependencies that are not placed. -/
  inDegree : M → Int
  ready : List M
  order : List M

variable [LinearOrder M] (G : DepGraph M)

def dependents (b : M) : List M := G.nodes.filter fun a => b ∈ G.deps a

/-- A dependency of a node has been placed. -/
def release (s : State M) (d : M) : State M :=
  let n := s.inDegree d - 1
  { s with
    inDegree := Function.update s.inDegree d n
    ready := if n = 0 then s.ready ++ [d] else s.ready }

/-- Place the smallest ready node. -/
def step (s : State M) : Option (State M) :=
  match s.ready.insertionSort (· ≤ ·) with
  | [] => none
  | m :: rest =>
    some ((G.dependents m).foldl release { s with ready := rest, order := s.order ++ [m] })

/-- At most so many steps. -/
def run : Nat → State M → State M
  | 0, s => s
  | n + 1, s =>
    match G.step s with
    | some s' => run n s'
    | none => s

def start : State M where
  inDegree m := (G.deps m).length
  ready := G.nodes.filter fun m => ((G.deps m).length : Int) = 0
  order := []

/-- Every step places a node, so there are no more of them than nodes. -/
def kahn : State M := G.run G.nodes.length G.start

/-- A chain of dependencies that comes back to where it began. -/
def Cyclic : Prop := ∃ m ∈ G.nodes, Relation.TransGen (fun a b => b ∈ G.deps a) m m

/-! ## What a step does -/

/-- What holds of every state: the order respects the dependencies, the counts count the open
    ones, and the ready nodes are those without. -/
structure Inv (s : State M) : Prop where
  order_nodup : s.order.Nodup
  order_sub : ∀ m ∈ s.order, m ∈ G.nodes
  closed : ∀ l a l', s.order = l ++ a :: l' → ∀ b ∈ G.deps a, b ∈ l
  degree : ∀ m ∈ G.nodes, s.inDegree m = (G.deps m).countP (· ∉ s.order)
  ready_nodup : s.ready.Nodup
  ready_iff : ∀ m, m ∈ s.ready ↔ m ∈ G.nodes ∧ m ∉ s.order ∧ s.inDegree m = 0

variable {G} {s s' : State M}

theorem Inv.closed_mem (h : G.Inv s) {a : M} (ha : a ∈ s.order) : ∀ b ∈ G.deps a, b ∈ s.order := by
  obtain ⟨l, l', hl⟩ := List.append_of_mem ha
  intro b hb
  rw [hl]
  exact List.mem_append_left _ (h.closed l a l' hl b hb)

theorem Inv.degree_eq_zero (h : G.Inv s) {m : M} (hm : m ∈ G.nodes) :
    s.inDegree m = 0 ↔ ∀ b ∈ G.deps m, b ∈ s.order := by
  rw [h.degree m hm, Int.natCast_eq_zero, List.countP_eq_zero]
  simp only [decide_eq_true_eq, not_not]

theorem foldl_release (ds : List M) (hds : ds.Nodup) (s : State M) :
    (ds.foldl release s).order = s.order ∧
      (∀ x, (ds.foldl release s).inDegree x = s.inDegree x - if x ∈ ds then 1 else 0) ∧
      (ds.foldl release s).ready = s.ready ++ ds.filter fun d => s.inDegree d = 1 := by
  induction ds generalizing s with
  | nil => simp
  | cons d ds ih =>
    obtain ⟨hd, hds⟩ := List.nodup_cons.1 hds
    obtain ⟨horder, hdegree, hready⟩ := ih hds (release s d)
    have hother (x : M) (hx : x ≠ d) : (release s d).inDegree x = s.inDegree x :=
      Function.update_of_ne hx _ _
    have hself : (release s d).inDegree d = s.inDegree d - 1 := Function.update_self _ _ _
    rw [List.foldl_cons]
    refine ⟨horder, fun x => ?_, ?_⟩
    · rw [hdegree x]
      by_cases hx : x = d
      · subst hx
        rw [hself, if_neg hd, if_pos List.mem_cons_self, sub_zero]
      · rw [hother x hx]
        simp only [List.mem_cons, hx, false_or]
    · have hfilter : (ds.filter fun x => (release s d).inDegree x = 1) =
          ds.filter fun x => s.inDegree x = 1 := by
        refine List.filter_congr fun x hx => ?_
        rw [hother x fun heq => hd (heq ▸ hx)]
      rw [hready, hfilter, List.filter_cons, release]
      by_cases h1 : s.inDegree d = 1
      · simp [h1]
      · simp [h1, show s.inDegree d - 1 ≠ 0 by omega]

theorem dependents_nodup (b : M) : (G.dependents b).Nodup := G.nodup.filter _

theorem mem_dependents {a b : M} : a ∈ G.dependents b ↔ a ∈ G.nodes ∧ b ∈ G.deps a := by
  rw [dependents, List.mem_filter, decide_eq_true_iff]

/-- One fewer is open after a node has been placed. -/
theorem countP_placed {deps order : List M} (hdeps : deps.Nodup) {m : M} (hm : m ∉ order) :
    (deps.countP (· ∉ order ++ [m]) : Int) =
      deps.countP (· ∉ order) - if m ∈ deps then 1 else 0 := by
  induction deps with
  | nil => simp
  | cons b deps ih =>
    obtain ⟨hb, hdeps⟩ := List.nodup_cons.1 hdeps
    have ih := ih hdeps
    rw [List.countP_cons, List.countP_cons]
    by_cases hbm : b = m
    · subst hbm
      rw [if_neg hb, sub_zero] at ih
      rw [if_neg (by simp), if_pos (by simpa using hm), if_pos List.mem_cons_self]
      push_cast
      omega
    · have hhead : decide (b ∉ order ++ [m]) = decide (b ∉ order) := by simp [hbm]
      have hmem : m ∈ b :: deps ↔ m ∈ deps := by
        rw [List.mem_cons, or_iff_right fun h => hbm h.symm]
      rw [hhead]
      simp only [hmem]
      push_cast
      omega

theorem Inv.step (h : G.Inv s) (hs : G.step s = some s') :
    G.Inv s' ∧ s'.order.length = s.order.length + 1 := by
  rw [DepGraph.step] at hs
  cases hsort : s.ready.insertionSort (· ≤ ·) with
  | nil =>
    rw [hsort] at hs
    cases hs
  | cons m rest =>
    rw [hsort] at hs
    obtain rfl := Option.some.inj hs
    have hperm : (m :: rest).Perm s.ready := hsort ▸ List.perm_insertionSort _ _
    obtain ⟨hmrest, hrest⟩ := List.nodup_cons.1 (hperm.nodup_iff.2 h.ready_nodup)
    obtain ⟨hmnode, hmorder, hmdeg⟩ := (h.ready_iff m).1 (hperm.mem_iff.1 List.mem_cons_self)
    obtain ⟨horder, hdegree, hready⟩ := foldl_release (G.dependents m) (dependents_nodup m)
      { s with ready := rest, order := s.order ++ [m] }
    simp only at horder hdegree hready
    -- the dependencies of the placed node are all in front of it
    have hmdeps : ∀ b ∈ G.deps m, b ∈ s.order := (h.degree_eq_zero hmnode).1 hmdeg
    -- a dependent is neither placed nor ready
    have hdep (x : M) (hx : x ∈ G.dependents m) : x ∉ s.order ∧ s.inDegree x ≠ 0 := by
      obtain ⟨hxnode, hxm⟩ := mem_dependents.1 hx
      exact ⟨fun hxo => hmorder (h.closed_mem hxo m hxm),
        fun h0 => hmorder ((h.degree_eq_zero hxnode).1 h0 m hxm)⟩
    refine ⟨⟨?_, ?_, ?_, ?_, ?_, ?_⟩, ?_⟩
    · rw [horder]
      exact List.nodup_append.2 ⟨h.order_nodup, List.nodup_singleton m, fun a ha b hb hab =>
        hmorder (List.mem_singleton.1 hb ▸ hab ▸ ha)⟩
    · rw [horder]
      intro x hx
      rcases List.mem_append.1 hx with hx | hx
      · exact h.order_sub x hx
      · exact List.mem_singleton.1 hx ▸ hmnode
    · rw [horder]
      intro l a l' hl b hb
      rcases List.eq_nil_or_concat l' with rfl | ⟨l', c, rfl⟩
      · obtain ⟨rfl, ha⟩ := List.append_inj' hl rfl
        obtain rfl : m = a := by simpa using ha
        exact hmdeps b hb
      · rw [List.concat_eq_append, ← List.cons_append, ← List.append_assoc] at hl
        exact h.closed l a l' (List.append_inj' hl rfl).1 b hb
    · intro x hx
      rw [horder, hdegree x, h.degree x hx, countP_placed (G.deps_nodup x) hmorder]
      simp only [mem_dependents, hx, true_and]
    · rw [hready]
      refine List.nodup_append.2 ⟨hrest, (dependents_nodup m).filter _, fun a ha b hb hab => ?_⟩
      obtain rfl := hab
      have hzero := ((h.ready_iff a).1 (hperm.mem_iff.1 (List.mem_cons_of_mem m ha))).2.2
      exact (hdep a (List.mem_filter.1 hb).1).2 hzero
    · intro x
      rw [hready, horder, hdegree x, List.mem_append, List.mem_append, List.mem_filter,
        List.mem_singleton, decide_eq_true_iff]
      constructor
      · rintro (hx | ⟨hx, h1⟩)
        · obtain ⟨hxnode, hxorder, hxdeg⟩ := (h.ready_iff x).1
            (hperm.mem_iff.1 (List.mem_cons_of_mem m hx))
          have hxdep : x ∉ G.dependents m := fun hd => (hdep x hd).2 hxdeg
          refine ⟨hxnode, not_or.2 ⟨hxorder, fun heq => hmrest (heq ▸ hx)⟩, ?_⟩
          rw [if_neg hxdep, hxdeg, sub_zero]
        · obtain ⟨hxorder, -⟩ := hdep x hx
          refine ⟨(mem_dependents.1 hx).1, not_or.2 ⟨hxorder, ?_⟩, ?_⟩
          · rintro rfl
            rw [hmdeg] at h1
            exact absurd h1 (by decide)
          · rw [if_pos hx, h1, sub_self]
      · rintro ⟨hxnode, hxorder, hxdeg⟩
        obtain ⟨hxorder, hxm⟩ := not_or.1 hxorder
        by_cases hx : x ∈ G.dependents m
        · rw [if_pos hx] at hxdeg
          exact .inr ⟨hx, by omega⟩
        · rw [if_neg hx, sub_zero] at hxdeg
          have hxready := (h.ready_iff x).2 ⟨hxnode, hxorder, hxdeg⟩
          exact .inl ((List.mem_cons.1 (hperm.mem_iff.2 hxready)).resolve_left hxm)
    · rw [horder, List.length_append, List.length_singleton]

/-! ## Whole runs -/

theorem inv_start : G.Inv G.start where
  order_nodup := List.nodup_nil
  order_sub := nofun
  closed l a l' h := by simp [start] at h
  degree m _ := by simp [start]
  ready_nodup := G.nodup.filter _
  ready_iff m := by simp [start]

/-- Where all nodes are placed, none is ready. -/
theorem Inv.subset_order (h : G.Inv s) (hle : G.nodes.length ≤ s.order.length) :
    s.order.Perm G.nodes :=
  (List.subperm_of_subset h.order_nodup h.order_sub).perm_of_length_le hle

theorem step_eq_none (h : G.step s = none) : s.ready = [] := by
  rw [step] at h
  cases hsort : s.ready.insertionSort (· ≤ ·) with
  | nil => exact List.Perm.nil_eq (hsort ▸ List.perm_insertionSort _ _) |>.symm
  | cons m rest =>
    rw [hsort] at h
    cases h

/-- With a step for every node that is not placed, a run ends with no ready node. -/
theorem run_spec (h : G.Inv s) {n : Nat} (hn : G.nodes.length ≤ n + s.order.length) :
    G.Inv (G.run n s) ∧ (G.run n s).ready = [] := by
  induction n generalizing s with
  | zero =>
    refine ⟨h, List.eq_nil_iff_forall_not_mem.2 fun m hm => ?_⟩
    obtain ⟨hnode, horder, -⟩ := (h.ready_iff m).1 hm
    exact horder ((h.subset_order (by omega)).mem_iff.2 hnode)
  | succ n ih =>
    rw [run]
    cases hs : G.step s with
    | none => exact ⟨h, step_eq_none hs⟩
    | some s' =>
      obtain ⟨h', hlen⟩ := h.step hs
      exact ih h' (by omega)

variable (G)

theorem kahn_inv : G.Inv G.kahn := (run_spec inv_start (Nat.le_add_right _ _)).1

theorem kahn_ready : G.kahn.ready = [] := (run_spec inv_start (Nat.le_add_right _ _)).2

/-- A node that is not placed has a dependency that is not placed. -/
theorem kahn_stuck {m : M} (hm : m ∈ G.nodes) (hmo : m ∉ G.kahn.order) :
    ∃ b ∈ G.deps m, b ∉ G.kahn.order := by
  have hinv := G.kahn_inv
  by_contra hall
  have h0 : G.kahn.inDegree m = 0 := (hinv.degree_eq_zero hm).2 fun b hb => by
    by_contra hbo
    exact hall ⟨b, hb, hbo⟩
  have hready := (hinv.ready_iff m).2 ⟨hm, hmo, h0⟩
  rw [G.kahn_ready] at hready
  cases hready

/-- The nodes that are placed stand behind those they depend on. -/
theorem kahn_respects : G.kahn.order.Pairwise fun a b => b ∉ G.deps a := by
  have hinv := G.kahn_inv
  have hnodup := hinv.order_nodup
  have hclosed := hinv.closed
  generalize G.kahn.order = order at hnodup hclosed
  rw [List.pairwise_iff_forall_sublist]
  intro a b hab hb
  obtain ⟨l, l', rfl, ha, hb'⟩ := List.cons_sublist_iff.1 hab
  obtain ⟨l₁, l₂, rfl⟩ := List.append_of_mem ha
  have hin := hclosed l₁ a (l₂ ++ l') (by simp) b hb
  have hb' := List.singleton_sublist.1 hb'
  exact (List.nodup_append.1 hnodup).2.2 b (List.mem_append_left _ hin) b hb' rfl

/-- Along a chain of dependencies the positions go down. -/
theorem idxOf_lt_of_transGen (hall : ∀ m ∈ G.nodes, m ∈ G.kahn.order) {a b : M}
    (ha : a ∈ G.nodes) (h : Relation.TransGen (fun a b => b ∈ G.deps a) a b) :
    b ∈ G.nodes ∧ G.kahn.order.idxOf b < G.kahn.order.idxOf a := by
  have hone {x y : M} (hx : x ∈ G.nodes) (hy : y ∈ G.deps x) :
      G.kahn.order.idxOf y < G.kahn.order.idxOf x := by
    have hinv := G.kahn_inv
    obtain ⟨l, l', hl⟩ := List.append_of_mem (hall x hx)
    have hyl := hinv.closed l x l' hl y hy
    have hnodup := hinv.order_nodup
    rw [hl] at hnodup ⊢
    have hxl : x ∉ l := fun hxl => (List.nodup_append.1 hnodup).2.2 x hxl x List.mem_cons_self rfl
    rw [List.idxOf_append_of_mem hyl, List.idxOf_append_of_notMem hxl]
    exact (List.idxOf_lt_length_of_mem hyl).trans_le (Nat.le_add_right _ _)
  induction h with
  | single hb => exact ⟨G.deps_sub a ha _ hb, hone ha hb⟩
  | tail _ hc ih => exact ⟨G.deps_sub _ ih.1 _ hc, (hone ih.1 hc).trans ih.2⟩

omit [LinearOrder M] in
/-- Without a cycle, some node of a set that is not empty has no dependency in the set. -/
theorem exists_minimal (hacyclic : ¬ G.Cyclic) {rest : List M} (hsub : ∀ m ∈ rest, m ∈ G.nodes)
    (hne : rest ≠ []) : ∃ m ∈ rest, ∀ b ∈ G.deps m, b ∉ rest := by
  let dep : {m // m ∈ rest} → {m // m ∈ rest} → Prop := fun b a =>
    Relation.TransGen (fun a b => b ∈ G.deps a) a.1 b.1
  have htrans : IsTrans _ dep := ⟨fun _ _ _ hab hbc => hbc.trans hab⟩
  have hirrefl : Std.Irrefl dep := ⟨fun a ha => hacyclic ⟨a.1, hsub _ a.2, ha⟩⟩
  have hfin : Finite {m // m ∈ rest} := rest.finite_toSet.to_subtype
  have hwf : WellFounded dep := Finite.wellFounded_of_trans_of_irrefl dep
  obtain ⟨m, hm⟩ := List.exists_mem_of_ne_nil rest hne
  obtain ⟨a, -, hmin⟩ := hwf.has_min Set.univ ⟨⟨m, hm⟩, trivial⟩
  exact ⟨a.1, a.2, fun b hb hbrest => hmin ⟨b, hbrest⟩ trivial (.single hb)⟩

/-- **All nodes are placed exactly when there is no cycle.** -/
theorem kahn_complete_iff : G.kahn.order.length = G.nodes.length ↔ ¬ G.Cyclic := by
  constructor
  · rintro hlen ⟨m, hm, hcycle⟩
    have hperm := G.kahn_inv.subset_order hlen.ge
    exact lt_irrefl _ (G.idxOf_lt_of_transGen (fun x hx => hperm.mem_iff.2 hx) hm hcycle).2
  · intro hacyclic
    have hinv := G.kahn_inv
    have hall : ∀ m ∈ G.nodes, m ∈ G.kahn.order := by
      by_contra hnot
      have hrest : G.nodes.filter (· ∉ G.kahn.order) ≠ [] := by
        intro hnil
        refine hnot fun m hm => ?_
        by_contra hmo
        have : m ∈ G.nodes.filter (· ∉ G.kahn.order) := List.mem_filter.2 ⟨hm, by simpa using hmo⟩
        rw [hnil] at this
        cases this
      obtain ⟨m, hm, hmin⟩ := G.exists_minimal hacyclic (fun m hm => (List.mem_filter.1 hm).1) hrest
      obtain ⟨hmnode, hmo⟩ := List.mem_filter.1 hm
      obtain ⟨b, hb, hbo⟩ := G.kahn_stuck hmnode (by simpa using hmo)
      exact hmin b hb (List.mem_filter.2 ⟨G.deps_sub m hmnode b hb, by simpa using hbo⟩)
    have hle : G.nodes.length ≤ G.kahn.order.length :=
      (List.subperm_of_subset G.nodup hall).length_le
    exact (hinv.subset_order hle).length_eq

/-- Where no node is stuck the order is one of all nodes. -/
theorem kahn_perm (h : G.kahn.order.length = G.nodes.length) : G.kahn.order.Perm G.nodes :=
  G.kahn_inv.subset_order h.ge

end DepGraph

end Mirage
