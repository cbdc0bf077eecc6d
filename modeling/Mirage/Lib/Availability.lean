import Mirage.Lib.Dominators

/-!
# Availability

Each node of a graph defines some values, and a value is defined at one node at most (`Once`).
A value is *above* a node when its node dominates the node and is another one: on every path to
the node it has been defined before.

* `above_edge`: what is above a node is above its predecessor, or defined there;
* `not_above_own`: a node is not below its own definitions;
* `above_of_above`: what is above or at the node of a value is above every node that the value is
  above;
* `above_of_edges`: a value that comes with every edge into a node from nodes that the node does
  not dominate is above it.
-/

namespace Mirage.Dominators

variable {V X : Type*} {succ : V → List V} {root : V}

/-! ### Dominators of dominators -/

theorem Path.exists_suffix {l : List V} {v u : V} (h : Path succ root l v) (hu : u ∈ l) :
    ∃ l', Path succ root l' u ∧ l'.IsSuffix l := by
  induction h with
  | start =>
    rw [List.mem_singleton.1 hu]
    exact ⟨[root], .start, List.suffix_refl _⟩
  | @step l w v h hv ih =>
    rcases List.mem_cons.1 hu with rfl | hu
    · exact ⟨u :: l, h.step hv, List.suffix_refl _⟩
    · obtain ⟨l', hl', hsuffix⟩ := ih hu
      exact ⟨l', hl', hsuffix.trans (List.suffix_cons v l)⟩

theorem Dominates.trans {a d v : V} (h : Dominates succ root a d) (h' : Dominates succ root d v) :
    Dominates succ root a v := by
  intro l hl
  obtain ⟨l', hl', hsuffix⟩ := hl.exists_suffix (h' l hl)
  exact hsuffix.subset (h l' hl')

theorem Dominates.reachable {d v : V} (h : Dominates succ root d v) (hv : Reachable succ root v) :
    Reachable succ root d := by
  obtain ⟨l, hl⟩ := hv
  obtain ⟨l', hl', -⟩ := hl.exists_suffix (h l hl)
  exact ⟨l', hl'⟩

/-- Two nodes do not dominate each other. -/
theorem Dominates.antisymm {a b : V} (h : Dominates succ root a b) (h' : Dominates succ root b a)
    (hb : Reachable succ root b) : a = b := by
  by_contra hne
  obtain ⟨l, hl⟩ := hb
  -- the shortest path to `b` goes through `a`, and the path to `a` through `b` again
  induction hn : l.length using Nat.strong_induction_on generalizing l with
  | _ n ih =>
    subst hn
    obtain ⟨la, hla, hsuffix⟩ := hl.exists_suffix (h l hl)
    obtain ⟨lb, hlb, hsuffix'⟩ := hla.exists_suffix (h' la hla)
    have hlt : la.length < l.length := by
      refine lt_of_le_of_ne hsuffix.length_le fun he => hne ?_
      have heq := hsuffix.eq_of_length he
      cases hl with
      | start => cases hla with
        | start => rfl
        | step => exact (List.cons.inj heq).1
      | step => cases hla with
        | start => exact (List.cons.inj heq).1
        | step => exact (List.cons.inj heq).1
    exact ih lb.length (lt_of_le_of_lt hsuffix'.length_le hlt) lb hlb rfl

/-! ### Values -/

variable (succ root) (defs : V → X → Prop)

/-- A value is defined at one node at most. -/
def Once : Prop := ∀ x u v, defs u x → defs v x → u = v

/-- The value is defined at a node that dominates this one, and is another one. -/
def Above (v : V) (x : X) : Prop := ∃ d, d ≠ v ∧ Dominates succ root d v ∧ defs d x

variable {succ root} {defs}

theorem Above.mono {defs' : V → X → Prop} (h : ∀ v x, defs v x → defs' v x) {v : V} {x : X}
    (hx : Above succ root defs v x) : Above succ root defs' v x := by
  obtain ⟨d, hne, hdom, hd⟩ := hx
  exact ⟨d, hne, hdom, h d x hd⟩

/-- What is above a node is above its predecessor, or defined there. -/
theorem above_edge {u v : V} {x : X} (hv : v ∈ succ u) (h : Above succ root defs v x) :
    defs u x ∨ Above succ root defs u x := by
  obtain ⟨d, hne, hdom, hd⟩ := h
  by_cases hu : d = u
  · exact .inl (hu ▸ hd)
  · exact .inr ⟨d, hu, hdom.pred hv hne, hd⟩

theorem not_above_root (x : X) : ¬ Above succ root defs root x := by
  rintro ⟨d, hne, hdom, -⟩
  exact hne (List.mem_singleton.1 (hdom [root] .start))

theorem not_above_own (honce : Once defs) {v : V} {x : X} (hx : defs v x) :
    ¬ Above succ root defs v x := by
  rintro ⟨d, hne, -, hd⟩
  exact hne (honce x d v hd hx)

/-- What is above or at the node of a value is above every node that the value is above. -/
theorem above_of_above {v : V} (hv : Reachable succ root v) {d : V} (hne : d ≠ v)
    (hdom : Dominates succ root d v) {x : X} (hx : defs d x ∨ Above succ root defs d x) :
    Above succ root defs v x := by
  rcases hx with hx | ⟨e, hne', hdom', he⟩
  · exact ⟨d, hne, hdom, hx⟩
  · refine ⟨e, fun heq => hne ?_, hdom'.trans hdom, he⟩
    subst heq
    exact hdom.antisymm hdom' hv

/-- A value that comes with every edge into a node, from the nodes that the node does not
    dominate, is above the node. -/
theorem above_of_edges (honce : Once defs) {v : V} {x : X} (hne : v ≠ root)
    (hv : Reachable succ root v)
    (hedges : ∀ u, Reachable succ root u → v ∈ succ u → ¬ Dominates succ root v u →
      defs u x ∨ Above succ root defs u x) : Above succ root defs v x := by
  -- every path to the node has a first arrival at it, and goes through the value before
  have hpath : ∀ l w, Path succ root l w → v ∈ l → ∃ d, defs d x ∧ d ∈ l ∧ d ≠ v := by
    intro l w hl
    induction hl with
    | start => exact fun hmem => absurd (List.mem_singleton.1 hmem) hne
    | @step l u w hl hw ih =>
      intro hmem
      by_cases hbefore : v ∈ l
      · obtain ⟨d, hd, hdl, hdv⟩ := ih hbefore
        exact ⟨d, hd, List.mem_cons_of_mem _ hdl, hdv⟩
      · obtain rfl : v = w := (List.mem_cons.1 hmem).resolve_right hbefore
        have hnot : ¬ Dominates succ root v u := fun hdom => hbefore (hdom l hl)
        rcases hedges u ⟨l, hl⟩ hw hnot with hd | ⟨d, -, hdom, hd⟩
        · exact ⟨u, hd, List.mem_cons_of_mem _ hl.head_mem, fun he => hbefore (he ▸ hl.head_mem)⟩
        · exact ⟨d, hd, List.mem_cons_of_mem _ (hdom l hl), fun he => hbefore (he ▸ hdom l hl)⟩
  obtain ⟨l, hl⟩ := hv
  obtain ⟨d, hd, -, hdv⟩ := hpath l v hl hl.head_mem
  refine ⟨d, hdv, fun l' hl' => ?_, hd⟩
  obtain ⟨d', hd', hmem, -⟩ := hpath l' v hl' hl'.head_mem
  rwa [honce x d d' hd hd']

end Mirage.Dominators
