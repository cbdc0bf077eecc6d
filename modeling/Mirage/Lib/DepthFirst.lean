import Mathlib.Algebra.BigOperators.Group.Finset.Basic
import Mathlib.Algebra.Order.BigOperators.Group.Finset
import Mathlib.Algebra.Ring.Nat
import Mathlib.Data.List.Infix
import Mathlib.Logic.Relation

/-!
# Depth-first search with a stack

A depth-first search from a root that keeps the way to where it is on a stack, each node
with the number of successors it has looked at, and puts a node in front of the finished ones
when it has looked at all of them (`search`). The finished nodes are then in reverse
post-order.

The stack from its bottom, followed by the finished nodes, is a list that a step of the
search never reorders: finishing a node leaves it as it is, and a new node is put in the
middle (`State.whole`). So what is found out about the order of two nodes stays.

* `search_finishes`: the search of a finite graph ends, and the order it ends with numbers
  the nodes that can be reached (`Numbered`): the root comes first, every other node has a
  predecessor before it, and where an edge does not lead ahead, the edges that do lead ahead
  lead back from its target to its source.
-/

namespace Mirage.DepthFirst

open Relation List

variable {V : Type*} (succ : V → List V)

/-- An edge that leads ahead in a list of nodes. -/
def Ahead (l : List V) (x y : V) : Prop := y ∈ succ x ∧ [x, y].Sublist l

/-- Where the search is. -/
structure State (V : Type*) where
  seen : V → Bool
  stack : List (V × Nat)
  order : List V

/-- The nodes the search has seen: the stack from its bottom, and the finished ones. -/
def State.whole (s : State V) : List V := (s.stack.map Prod.fst).reverse ++ s.order

/-- Look at the next successor of the node on top, or finish that node. -/
def step [DecidableEq V] (s : State V) : State V :=
  match s.stack with
  | [] => s
  | (b, i) :: rest =>
    match (succ b)[i]? with
    | some next =>
      if s.seen next then { s with stack := (b, i + 1) :: rest }
      else
        { s with
          seen := Function.update s.seen next true
          stack := (next, 0) :: (b, i + 1) :: rest }
    | none => { s with stack := rest, order := b :: s.order }

/-- The finished nodes when the stack is empty; `none` when the steps run out. -/
def search [DecidableEq V] : Nat → State V → Option (List V)
  | 0, s => if s.stack.isEmpty then some s.order else none
  | fuel + 1, s => if s.stack.isEmpty then some s.order else search fuel (step succ s)

/-- The search begins with its root. -/
def start [DecidableEq V] (root : V) : State V where
  seen := fun v => v = root
  stack := [(root, 0)]
  order := []

/-! ### What is kept -/

/-- The edge from `b` to `v` leads ahead, or `v` leads to `b` by edges that do. -/
def Settled (l : List V) (b v : V) : Prop :=
  v ∈ l ∧ ([b, v].Sublist l ∨ ReflTransGen (Ahead succ l) v b)

variable {succ}

theorem Ahead.mono {l l' : List V} (h : l.Sublist l') {x y : V} (ha : Ahead succ l x y) :
    Ahead succ l' x y := ⟨ha.1, ha.2.trans h⟩

theorem Settled.mono {l l' : List V} (h : l.Sublist l') {b v : V} (hs : Settled succ l b v) :
    Settled succ l' b v :=
  ⟨h.subset hs.1, hs.2.imp (fun hb => hb.trans h)
    (ReflTransGen.mono (fun _ _ => Ahead.mono h) v b)⟩

/-- The nodes on a stack lead to the top of it. -/
theorem reaches_top {l : List V} {x : V} :
    ∀ {top : V × Nat} {rest : List (V × Nat)},
      (top :: rest).IsChain (fun x y => x.1 ∈ succ y.1) →
      ((top :: rest).map Prod.fst).reverse.Sublist l → x ∈ (top :: rest).map Prod.fst →
      ReflTransGen (Ahead succ l) x top.1
  | top, [], _, _, hx => by
    obtain rfl : x = top.1 := by simpa using hx
    exact ReflTransGen.refl
  | top, below :: rest, hchain, hsub, hx => by
    rw [List.map_cons, List.reverse_cons] at hsub
    rcases List.mem_cons.1 hx with rfl | hx
    · exact ReflTransGen.refl
    · obtain ⟨hedge, hchain⟩ := List.isChain_cons_cons.1 hchain
      have hbelow := reaches_top hchain ((List.sublist_append_left _ _).trans hsub) hx
      refine hbelow.tail ⟨hedge, Sublist.trans ?_ hsub⟩
      have hlast : [below.1].Sublist ((below :: rest).map Prod.fst).reverse := by simp
      exact hlast.append (Sublist.refl [top.1])

/-- What the search keeps. -/
structure Inv (succ : V → List V) (root : V) (s : State V) : Prop where
  seen : ∀ v, s.seen v = true ↔ v ∈ s.whole
  nodup : s.whole.Nodup
  head : s.whole.head? = some root
  entered : ∀ v ∈ s.whole, v ≠ root → ∃ p, Ahead succ s.whole p v
  chain : s.stack.IsChain fun x y => x.1 ∈ succ y.1
  looked : ∀ b i, (b, i) ∈ s.stack → ∀ j < i, ∀ v, (succ b)[j]? = some v →
    Settled succ s.whole b v
  finished : ∀ b ∈ s.order, ∀ v ∈ succ b, Settled succ s.whole b v

theorem inv_start [DecidableEq V] (root : V) : Inv succ root (start root) where
  seen v := by simp [start, State.whole]
  nodup := by simp [start, State.whole]
  head := rfl
  entered v hv hne := absurd (by simpa [start, State.whole] using hv) hne
  chain := List.isChain_singleton _
  looked b i h j hj := by
    obtain ⟨-, rfl⟩ := Prod.mk.inj (List.mem_singleton.1 h)
    exact absurd hj (Nat.not_lt_zero j)
  finished b h := absurd h List.not_mem_nil

namespace Inv

variable {root b next : V} {i : Nat} {rest : List (V × Nat)} {s : State V}

/-- The next successor has been seen: it is on the stack, or finished. -/
theorem step_seen (h : Inv succ root s) (hstack : s.stack = (b, i) :: rest)
    (hnext : (succ b)[i]? = some next) (hseen : s.seen next = true) :
    Inv succ root { s with stack := (b, i + 1) :: rest } := by
  have hwhole : ({ s with stack := (b, i + 1) :: rest } : State V).whole = s.whole := by
    rw [State.whole, State.whole, hstack]
    rfl
  have hchain := h.chain
  rw [hstack] at hchain
  refine ⟨?_, ?_, ?_, ?_, ?_, fun c k hc j hj v hv => ?_, ?_⟩
  · rw [hwhole]; exact h.seen
  · rw [hwhole]; exact h.nodup
  · rw [hwhole]; exact h.head
  · rw [hwhole]; exact h.entered
  · rcases rest with _ | ⟨below, rest⟩
    · exact List.isChain_singleton _
    · exact List.isChain_cons_cons.2 (List.isChain_cons_cons.1 hchain)
  · rw [hwhole]
    rcases List.mem_cons.1 hc with hc | hc
    · obtain ⟨rfl, rfl⟩ := Prod.mk.inj hc
      rcases Nat.lt_succ_iff_lt_or_eq.1 hj with hj | rfl
      · exact h.looked c i (by rw [hstack]; exact List.mem_cons_self) j hj v hv
      · obtain rfl : next = v := Option.some.inj (hnext.symm.trans hv)
        have hmem := (h.seen next).1 hseen
        refine ⟨hmem, ?_⟩
        rw [State.whole, hstack] at hmem ⊢
        rcases List.mem_append.1 hmem with hmem | hmem
        · exact .inr (reaches_top hchain (List.sublist_append_left _ _)
            (List.mem_reverse.1 hmem))
        · have hlast : [c].Sublist (((c, j) :: rest).map Prod.fst).reverse := by simp
          exact .inl (hlast.append (List.singleton_sublist.2 hmem))
    · exact h.looked c k (by rw [hstack]; exact List.mem_cons_of_mem _ hc) j hj v hv
  · rw [hwhole]; exact h.finished

/-- The next successor is new: it goes on top of the stack. -/
theorem step_new [DecidableEq V] (h : Inv succ root s) (hstack : s.stack = (b, i) :: rest)
    (hnext : (succ b)[i]? = some next) (hseen : s.seen next = false) :
    Inv succ root { s with
      seen := Function.update s.seen next true
      stack := (next, 0) :: (b, i + 1) :: rest } := by
  generalize hs' : ({ s with
      seen := Function.update s.seen next true
      stack := (next, 0) :: (b, i + 1) :: rest } : State V) = s'
  have hold : s.whole = (rest.map Prod.fst).reverse ++ [b] ++ s.order := by
    rw [State.whole, hstack]
    simp
  have hnew : s'.whole = (rest.map Prod.fst).reverse ++ [b] ++ next :: s.order := by
    rw [← hs', State.whole]
    simp
  have hfresh : next ∉ s.whole := fun hmem => by
    rw [(h.seen next).2 hmem] at hseen
    exact absurd hseen (by simp)
  have hperm : s'.whole.Perm (next :: s.whole) := by
    rw [hnew, hold]
    exact List.perm_middle
  have hsub : s.whole.Sublist s'.whole := by
    rw [hnew, hold]
    exact (Sublist.refl _).append (List.sublist_cons_self next s.order)
  have hahead : [b, next].Sublist s'.whole := by
    rw [hnew]
    have hlast : [b].Sublist ((rest.map Prod.fst).reverse ++ [b]) :=
      List.sublist_append_right _ _
    exact hlast.append (List.singleton_sublist.2 List.mem_cons_self)
  have hedge : next ∈ succ b := List.mem_of_getElem? hnext
  have hchain := h.chain
  rw [hstack] at hchain
  refine ⟨fun v => ?_, ?_, ?_, fun v hv hne => ?_, ?_, fun c k hc j hj v hv => ?_,
    fun c hc v hv => ?_⟩
  · rw [hperm.mem_iff, List.mem_cons, ← h.seen, ← hs']
    by_cases hv : v = next
    · subst hv
      simp
    · simp [hv]
  · exact hperm.nodup_iff.2 (List.nodup_cons.2 ⟨hfresh, h.nodup⟩)
  · have hhead := h.head
    rw [hold, List.append_assoc] at hhead
    rw [hnew, List.append_assoc]
    rcases hrest : (rest.map Prod.fst).reverse with _ | ⟨c, cs⟩
    · rw [hrest] at hhead
      exact hhead
    · rw [hrest] at hhead
      exact hhead
  · rcases List.mem_cons.1 (hperm.mem_iff.1 hv) with rfl | hv
    · exact ⟨b, hedge, hahead⟩
    · obtain ⟨p, hp⟩ := h.entered v hv hne
      exact ⟨p, hp.mono hsub⟩
  · rw [← hs']
    refine List.isChain_cons_cons.2 ⟨hedge, ?_⟩
    rcases rest with _ | ⟨below, rest⟩
    · exact List.isChain_singleton _
    · exact List.isChain_cons_cons.2 (List.isChain_cons_cons.1 hchain)
  · rw [← hs'] at hc
    rcases List.mem_cons.1 hc with hc | hc
    · obtain ⟨-, rfl⟩ := Prod.mk.inj hc
      exact absurd hj (Nat.not_lt_zero j)
    rcases List.mem_cons.1 hc with hc | hc
    · obtain ⟨rfl, rfl⟩ := Prod.mk.inj hc
      rcases Nat.lt_succ_iff_lt_or_eq.1 hj with hj | rfl
      · exact (h.looked c i (by rw [hstack]; exact List.mem_cons_self) j hj v hv).mono hsub
      · obtain rfl : next = v := Option.some.inj (hnext.symm.trans hv)
        exact ⟨hahead.subset (by simp), .inl hahead⟩
    · exact (h.looked c k (by rw [hstack]; exact List.mem_cons_of_mem _ hc) j hj v hv).mono hsub
  · rw [← hs'] at hc
    exact (h.finished c hc v hv).mono hsub

/-- All successors have been looked at: the node is finished, and stands where it stood. -/
theorem step_finish (h : Inv succ root s) (hstack : s.stack = (b, i) :: rest)
    (hnext : (succ b)[i]? = none) :
    Inv succ root { s with stack := rest, order := b :: s.order } := by
  have hwhole : ({ s with stack := rest, order := b :: s.order } : State V).whole = s.whole := by
    rw [State.whole, State.whole, hstack]
    simp
  have hchain := h.chain
  rw [hstack] at hchain
  refine ⟨?_, ?_, ?_, ?_, hchain.tail, fun c k hc j hj v hv => ?_, fun c hc v hv => ?_⟩
  · rw [hwhole]; exact h.seen
  · rw [hwhole]; exact h.nodup
  · rw [hwhole]; exact h.head
  · rw [hwhole]; exact h.entered
  · rw [hwhole]
    exact h.looked c k (by rw [hstack]; exact List.mem_cons_of_mem _ hc) j hj v hv
  · rw [hwhole]
    rcases List.mem_cons.1 hc with rfl | hc
    · obtain ⟨j, hj⟩ := List.mem_iff_getElem?.1 hv
      have hlt : j < i := by
        have hlen := (List.getElem?_eq_some_iff.1 hj).1
        have := List.getElem?_eq_none_iff.1 hnext
        omega
      exact h.looked c i (by rw [hstack]; exact List.mem_cons_self) j hlt v hj
    · exact h.finished c hc v hv

end Inv

/-! ### The end -/

/-- An order of the nodes that can be reached from a root. -/
structure Numbered (succ : V → List V) [DecidableEq V] (root : V) (l : List V) : Prop where
  nodup : l.Nodup
  head : l.head? = some root
  entered : ∀ v ∈ l, v ≠ root → ∃ p, Ahead succ l p v
  closed : ∀ b ∈ l, ∀ v ∈ succ b, v ∈ l
  back : ∀ b ∈ l, ∀ v ∈ succ b, l.idxOf v ≤ l.idxOf b → ReflTransGen (Ahead succ l) v b

section

variable [DecidableEq V] {root : V} {s : State V}

theorem Inv.step (h : Inv succ root s) : Inv succ root (step succ s) := by
  rw [DepthFirst.step.eq_def]
  rcases hstack : s.stack with _ | ⟨⟨b, i⟩, rest⟩
  · exact h
  · dsimp only
    rcases hnext : (succ b)[i]? with _ | next
    · exact h.step_finish hstack hnext
    · dsimp only
      split
      · rename_i hseen
        exact h.step_seen hstack hnext hseen
      · rename_i hseen
        exact h.step_new hstack hnext (Bool.eq_false_iff.2 hseen)

/-- Of two nodes in order, the first has the lower number. -/
theorem idxOf_lt {l : List V} (hl : l.Nodup) {x y : V} (h : [x, y].Sublist l) :
    l.idxOf x < l.idxOf y := by
  induction l with
  | nil => exact absurd h.length_le (by simp)
  | cons c l ih =>
    rw [List.nodup_cons] at hl
    rcases List.sublist_cons_iff.1 h with h | ⟨r, hr, h⟩
    · have hx : x ≠ c := fun he => hl.1 (he ▸ h.subset (by simp))
      have hy : y ≠ c := fun he => hl.1 (he ▸ h.subset (by simp))
      rw [List.idxOf_cons_ne _ (Ne.symm hx), List.idxOf_cons_ne _ (Ne.symm hy)]
      exact Nat.succ_lt_succ (ih hl.2 h)
    · obtain ⟨rfl, rfl⟩ := List.cons.inj hr
      have hy : y ≠ x := fun he => hl.1 (he ▸ List.singleton_sublist.1 h)
      rw [List.idxOf_cons_self, List.idxOf_cons_ne _ (Ne.symm hy)]
      exact Nat.succ_pos _

theorem Ahead.lt {l : List V} (hl : l.Nodup) {x y : V} (h : Ahead succ l x y) :
    l.idxOf x < l.idxOf y := idxOf_lt hl h.2

/-- When nothing is on the stack, the finished nodes are in order. -/
theorem Inv.numbered (h : Inv succ root s) (hstack : s.stack = []) :
    Numbered succ root s.order := by
  have hwhole : s.whole = s.order := by
    rw [State.whole, hstack]
    rfl
  have hnodup := h.nodup
  have hhead := h.head
  have hentered := h.entered
  have hfinished := h.finished
  rw [hwhole] at hnodup hhead hentered hfinished
  refine ⟨hnodup, hhead, hentered, fun b hb v hv => (hfinished b hb v hv).1,
    fun b hb v hv hle => ?_⟩
  rcases (hfinished b hb v hv).2 with hahead | hback
  · exact absurd (idxOf_lt hnodup hahead) (by omega)
  · exact hback

/-! ### The steps it takes -/

variable (succ) in
/-- What is left to do: the nodes that have not been seen, and the successors of those on the
    stack that have not been looked at. -/
def work (nodes : Finset V) (s : State V) : Nat :=
  (∑ v ∈ nodes with s.seen v = false, ((succ v).length + 2)) +
    (s.stack.map fun x => (succ x.1).length - x.2 + 1).sum

/-- The search stays in a set of nodes that is closed under successors. -/
def Inside (nodes : Finset V) (s : State V) : Prop := ∀ x ∈ s.stack, x.1 ∈ nodes

theorem step_inside {nodes : Finset V} (hclosed : ∀ v ∈ nodes, ∀ w ∈ succ v, w ∈ nodes)
    (h : Inside nodes s) : Inside nodes (step succ s) := by
  rw [DepthFirst.step.eq_def]
  rcases hstack : s.stack with _ | ⟨⟨b, i⟩, rest⟩
  · exact h
  have htop : b ∈ nodes := h (b, i) (by rw [hstack]; exact List.mem_cons_self)
  have hrest : ∀ x ∈ rest, x.1 ∈ nodes := fun x hx =>
    h x (by rw [hstack]; exact List.mem_cons_of_mem _ hx)
  dsimp only
  rcases hnext : (succ b)[i]? with _ | next
  · exact hrest
  · have hmem : next ∈ nodes := hclosed b htop next (List.mem_of_getElem? hnext)
    dsimp only
    split
    · exact List.forall_mem_cons.2 ⟨htop, hrest⟩
    · exact List.forall_mem_cons.2 ⟨hmem, List.forall_mem_cons.2 ⟨htop, hrest⟩⟩

/-- Every step leaves less to do. -/
theorem work_step {nodes : Finset V} (hclosed : ∀ v ∈ nodes, ∀ w ∈ succ v, w ∈ nodes)
    (h : Inside nodes s) (hstack : s.stack ≠ []) :
    work succ nodes (step succ s) < work succ nodes s := by
  rw [DepthFirst.step.eq_def]
  rcases hs : s.stack with _ | ⟨⟨b, i⟩, rest⟩
  · exact absurd hs hstack
  have htop : b ∈ nodes := h (b, i) (by rw [hs]; exact List.mem_cons_self)
  dsimp only
  rcases hnext : (succ b)[i]? with _ | next
  · simp only [work, hs, List.map_cons, List.sum_cons]
    omega
  · have hlt := (List.getElem?_eq_some_iff.1 hnext).1
    have hmem : next ∈ nodes := hclosed b htop next (List.mem_of_getElem? hnext)
    dsimp only
    split
    · simp only [work, hs, List.map_cons, List.sum_cons]
      omega
    · rename_i hseen
      have hfilter : ({v ∈ nodes | Function.update s.seen next true v = false} : Finset V) =
          ({v ∈ nodes | s.seen v = false} : Finset V).erase next := by
        ext v
        by_cases hv : v = next
        · subst hv
          simp
        · simp [hv]
      have hfresh : next ∈ ({v ∈ nodes | s.seen v = false} : Finset V) :=
        Finset.mem_filter.2 ⟨hmem, by simpa using hseen⟩
      have hsum := Finset.add_sum_erase _ (fun v => (succ v).length + 2) hfresh
      simp only [work, hs, List.map_cons, List.sum_cons, hfilter]
      omega

/-- With enough fuel for what is left to do, the search ends. -/
theorem search_of_work {nodes : Finset V} (hclosed : ∀ v ∈ nodes, ∀ w ∈ succ v, w ∈ nodes) :
    ∀ {n : Nat} {s : State V}, Inv succ root s → Inside nodes s → work succ nodes s ≤ n →
      ∃ l, Numbered succ root l ∧ ∀ fuel ≥ n, search succ fuel s = some l := by
  intro n
  induction n with
  | zero =>
    intro s hinv hin hwork
    have hstack : s.stack = [] := by
      by_contra hne
      exact absurd (work_step hclosed hin hne) (by omega)
    refine ⟨s.order, hinv.numbered hstack, fun fuel _ => ?_⟩
    rcases fuel with _ | fuel <;> rw [search, hstack] <;> rfl
  | succ n ih =>
    intro s hinv hin hwork
    by_cases hstack : s.stack = []
    · refine ⟨s.order, hinv.numbered hstack, fun fuel _ => ?_⟩
      rcases fuel with _ | fuel <;> rw [search, hstack] <;> rfl
    · have hless := work_step hclosed hin hstack
      obtain ⟨l, hl, hsearch⟩ := ih hinv.step (step_inside hclosed hin) (by omega)
      refine ⟨l, hl, fun fuel hfuel => ?_⟩
      rcases fuel with _ | fuel
      · omega
      · rw [search, if_neg (by simpa using hstack)]
        exact hsearch fuel (by omega)

/-- The search of a finite graph ends, with the nodes that can be reached in order. -/
theorem search_finishes {nodes : Finset V} (hclosed : ∀ v ∈ nodes, ∀ w ∈ succ v, w ∈ nodes)
    (hroot : root ∈ nodes) :
    ∃ l n, Numbered succ root l ∧ ∀ fuel ≥ n, search succ fuel (start root) = some l := by
  have hin : Inside nodes (start root) := List.forall_mem_singleton.2 hroot
  obtain ⟨l, hl, hsearch⟩ := search_of_work hclosed (inv_start root) hin le_rfl
  exact ⟨l, _, hl, hsearch⟩

end

end Mirage.DepthFirst
