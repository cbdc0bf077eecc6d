import Mirage.Lib.DepthFirst

/-!
# Dominators

A node *dominates* another when every path from the root to the other goes through it
(`Dominates`); the closest of its dominators but itself is its immediate dominator.

Dominators are kept as pointers from a node to a node above it. Climbing the pointers
from a node gives the candidates for its dominators (`Climbs`). The pointers are numbered: they
go to lower numbers, and the root, which has the number 0, points to itself (`Tree`).
The two fingers of `intersect` climb in turns, the one with the higher number first, until they
meet.

* `intersect_eq`: the fingers meet, above exactly what both climb to;
* `meet_eq`: so do all the nodes of a list that have pointers.
-/

namespace Mirage.Dominators

open Relation

variable {V : Type*}

section

variable (succ : V → List V) (root : V)

/-- A path from the root, last node first. -/
inductive Path : List V → V → Prop
  | start : Path [root] root
  | step {l : List V} {u v : V} (h : Path l u) (hv : v ∈ succ u) : Path (v :: l) v

/-- The node can be reached from the root. -/
def Reachable (v : V) : Prop := ∃ l, Path succ root l v

/-- Every path from the root to `v` goes through `a`. -/
def Dominates (a v : V) : Prop := ∀ l, Path succ root l v → a ∈ l

/-- `d` dominates `v` and is dominated by the other dominators of `v`. -/
structure ImmediateDominator (d v : V) : Prop where
  dominates : Dominates succ root d v
  ne : d ≠ v
  closest : ∀ a, Dominates succ root a v → a ≠ v → Dominates succ root a d

end

variable {succ : V → List V} {root : V}

theorem Path.head_mem {l : List V} {v : V} (h : Path succ root l v) : v ∈ l := by
  rcases h with _ | ⟨_, _⟩ <;> exact List.mem_cons_self

theorem Dominates.refl (v : V) : Dominates succ root v v := fun _ h => h.head_mem

/-- What dominates a node dominates its predecessors, but for the node itself. -/
theorem Dominates.pred {d u v : V} (h : Dominates succ root d v) (hv : v ∈ succ u)
    (hne : d ≠ v) : Dominates succ root d u := fun l hl =>
  (List.mem_cons.1 (h (v :: l) (hl.step hv))).resolve_left hne

/-! ### Reducibility -/

/-- The edges whose targets do not dominate their sources have no cycle. -/
def Reducible (succ : V → List V) (root : V) : Prop :=
  ∀ v, Reachable succ root v →
    ¬ TransGen (fun x y => y ∈ succ x ∧ ¬ Dominates succ root y x) v v

/-- Graphs of the same edges have the same paths. -/
theorem Path.congr {succ' : V → List V} (h : ∀ x y, y ∈ succ x ↔ y ∈ succ' x) {p : List V}
    {v : V} (hp : Path succ root p v) : Path succ' root p v := by
  induction hp with
  | start => exact .start
  | step _ hv ih => exact ih.step ((h _ _).1 hv)

/-- And are reducible at once. -/
theorem Reducible.congr {succ' : V → List V} (h : ∀ x y, y ∈ succ x ↔ y ∈ succ' x)
    (hr : Reducible succ root) : Reducible succ' root := by
  have h' : ∀ x y, y ∈ succ' x ↔ y ∈ succ x := fun x y => (h x y).symm
  refine fun v ⟨p, hp⟩ hcycle => hr v ⟨p, hp.congr h'⟩
    (TransGen.mono (fun x y hxy => ?_) v v hcycle)
  exact ⟨(h' x y).1 hxy.1, fun hd => hxy.2 fun p hp => hd p (hp.congr h')⟩

/-! ### Pointers -/

/-- `a` is reached from `v` by going up. -/
def Climbs (up : V → Option V) : V → V → Prop := ReflTransGen fun x y => up x = some y

/-- Pointers go to lower numbers, up to the root. -/
structure Tree (rank : V → Nat) (root : V) (up : V → Option V) : Prop where
  top : up root = some root
  zero : rank root = 0
  down : ∀ v p, up v = some p → v ≠ root → rank p < rank v
  closed : ∀ v p, up v = some p → up p ≠ none
  inj : ∀ v w, up v ≠ none → up w ≠ none → rank v = rank w → v = w

namespace Climbs

variable {up : V → Option V} {v w a : V}

theorem total (ha : Climbs up v a) (hw : Climbs up v w) : Climbs up a w ∨ Climbs up w a :=
  ReflTransGen.total_of_right_unique (fun _ _ _ h h' => Option.some.inj (h.symm.trans h')) ha hw

/-- Going up at all begins with the first pointer. -/
theorem of_ne {p : V} (h : Climbs up v a) (hne : a ≠ v) (hp : up v = some p) : Climbs up p a := by
  rcases ReflTransGen.cases_head h with rfl | ⟨p', hp', h⟩
  · exact absurd rfl hne
  · obtain rfl : p = p' := Option.some.inj (hp.symm.trans hp')
    exact h

end Climbs

namespace Tree

variable {rank : V → Nat} {up : V → Option V} {v w a b : V}

theorem climbs_root (h : Tree rank root up) (ha : Climbs up root a) : a = root := by
  induction ha with
  | refl => rfl
  | tail _ hstep ih =>
    subst ih
    exact Option.some.inj (hstep.symm.trans h.top)

/-- Going up does not raise the number. -/
theorem rank_le (h : Tree rank root up) (ha : Climbs up v a) : rank a ≤ rank v := by
  induction ha with
  | refl => exact le_rfl
  | @tail b c _ hstep ih =>
    by_cases hb : b = root
    · subst hb
      obtain rfl := Option.some.inj (h.top.symm.trans hstep)
      exact ih
    · exact (h.down b c hstep hb).le.trans ih

/-- And lowers it when it gets anywhere. -/
theorem rank_lt (h : Tree rank root up) (ha : Climbs up v a) (hne : a ≠ v) : rank a < rank v := by
  have hroot : v ≠ root := fun hv => hne (hv ▸ h.climbs_root (hv ▸ ha))
  rcases ReflTransGen.cases_head ha with rfl | ⟨p, hp, hpa⟩
  · exact absurd rfl hne
  · exact (h.rank_le hpa).trans_lt (h.down v p hp hroot)

/-- A node before another is not below it. -/
theorem not_climbs (h : Tree rank root up) (hlt : rank v < rank b) : ¬ Climbs up v b :=
  fun hx => absurd (h.rank_le hx) (by omega)

theorem has_pointer (h : Tree rank root up) (hv : up v ≠ none) (ha : Climbs up v a) :
    up a ≠ none := by
  induction ha with
  | refl => exact hv
  | @tail b c _ hstep _ => exact h.closed b c hstep

end Tree

/-! ### Fingers -/

/-- `while (rank[a] > limit) a = up[a]`. -/
def climb (rank : V → Nat) (up : V → Option V) (limit : Nat) : Nat → V → Option V
  | 0, a => if rank a > limit then none else some a
  | fuel + 1, a => if rank a > limit then (up a).bind (climb rank up limit fuel) else some a

/-- Two fingers climb in turns until they meet. -/
def intersect [DecidableEq V] (rank : V → Nat) (up : V → Option V) : Nat → V → V → Option V
  | 0, a, b => if a = b then some a else none
  | fuel + 1, a, b =>
    if a = b then some a
    else do
      let a ← climb rank up (rank b) fuel a
      let b ← climb rank up (rank a) fuel b
      intersect rank up fuel a b

/-- The fingers of the nodes of a list that have pointers, met one after the other. -/
def meet [DecidableEq V] (fuel : Nat) (rank : V → Nat) (up : V → Option V) (ps : List V) :
    Option (Option V) :=
  ps.foldlM (fun acc p =>
    if up p = none then some acc
    else match acc with
      | none => some (some p)
      | some a => (intersect rank up fuel a p).map some) none

section

variable {rank : V → Nat} {up : V → Option V}

/-- A finger stops at the first node above it that is low enough. -/
theorem climb_eq (h : Tree rank root up) (limit : Nat) :
    ∀ (fuel : Nat) {v : V}, up v ≠ none → rank v ≤ fuel →
      ∃ u, climb rank up limit fuel v = some u ∧ Climbs up v u ∧ rank u ≤ limit ∧
        ∀ w, Climbs up v w → rank w ≤ limit → Climbs up u w := by
  intro fuel
  induction fuel with
  | zero =>
    intro v _ hfuel
    exact ⟨v, if_neg (by omega), .refl, by omega, fun w hw _ => hw⟩
  | succ fuel ih =>
    intro v hv hfuel
    by_cases hlimit : rank v > limit
    · have hroot : v ≠ root := fun he => by
        have := h.zero
        rw [he] at hlimit
        omega
      obtain ⟨p, hp⟩ := Option.ne_none_iff_exists'.1 hv
      have hdown := h.down v p hp hroot
      obtain ⟨u, hu, hpu, hle, hmost⟩ := ih (h.closed v p hp) (by omega)
      refine ⟨u, ?_, .head hp hpu, hle, fun w hw hwle => hmost w (hw.of_ne ?_ hp) hwle⟩
      · rw [climb, if_pos hlimit, hp]
        exact hu
      · exact fun he => absurd (he ▸ hwle) (by omega)
    · exact ⟨v, if_neg hlimit, .refl, by omega, fun w hw _ => hw⟩

variable [DecidableEq V]

/-- The fingers meet, above exactly what both climb to. -/
theorem intersect_eq (h : Tree rank root up) :
    ∀ (fuel : Nat) {a b : V}, up a ≠ none → up b ≠ none → rank a + rank b < fuel →
      ∃ c, intersect rank up fuel a b = some c ∧ up c ≠ none ∧
        ∀ w, Climbs up c w ↔ Climbs up a w ∧ Climbs up b w := by
  intro fuel
  induction fuel with
  | zero => intro a b _ _ hfuel; omega
  | succ fuel ih =>
    intro a b ha hb hfuel
    by_cases hab : a = b
    · subst hab
      exact ⟨a, if_pos rfl, ha, fun w => ⟨fun hw => ⟨hw, hw⟩, And.left⟩⟩
    · have hranks : rank a ≠ rank b := fun he => hab (h.inj a b ha hb he)
      obtain ⟨a', ha', hclimb, hle, hmost⟩ := climb_eq h (rank b) fuel ha (by omega)
      obtain ⟨b', hb', hclimb', hle', hmost'⟩ := climb_eq h (rank a') fuel hb (by omega)
      have hlower := h.rank_le hclimb
      obtain ⟨c, hc, hpointer, hiff⟩ := ih (h.has_pointer ha hclimb) (h.has_pointer hb hclimb')
        (by omega)
      refine ⟨c, ?_, hpointer, fun w => ?_⟩
      · rw [intersect, if_neg hab, ha']
        show (climb rank up (rank a') fuel b).bind _ = _
        rw [hb']
        exact hc
      · rw [hiff]
        refine ⟨fun hw => ⟨hclimb.trans hw.1, hclimb'.trans hw.2⟩, fun hw => ?_⟩
        have haw := hmost w hw.1 (h.rank_le hw.2)
        exact ⟨haw, hmost' w hw.2 (h.rank_le haw)⟩

/-- What a list of nodes has met in: nowhere, while none has a pointer. -/
def Meets (up : V → Option V) (ps : List V) : Option V → Prop
  | none => ∀ p ∈ ps, up p = none
  | some c => up c ≠ none ∧ ∀ w, Climbs up c w ↔ ∀ p ∈ ps, up p ≠ none → Climbs up p w

/-- One more node for the fingers to meet. -/
theorem meets_step (h : Tree rank root up) {fuel n : Nat} (hbound : ∀ v, up v ≠ none → rank v < n)
    (hfuel : 2 * n ≤ fuel) {ps : List V} {acc : Option V} (hacc : Meets up ps acc) (p : V) :
    ∃ acc', (if up p = none then some acc
      else match acc with
        | none => some (some p)
        | some a => (intersect rank up fuel a p).map some) = some acc' ∧
      Meets up (ps ++ [p]) acc' := by
  by_cases hp : up p = none
  · refine ⟨acc, if_pos hp, ?_⟩
    rcases acc with _ | c
    · exact fun q hq => (List.mem_append.1 hq).elim (hacc q) fun hq =>
        List.mem_singleton.1 hq ▸ hp
    · refine ⟨hacc.1, fun w => (hacc.2 w).trans ⟨fun hw q hq hne => ?_, fun hw q hq => ?_⟩⟩
      · rcases List.mem_append.1 hq with hq | hq
        · exact hw q hq hne
        · exact absurd (List.mem_singleton.1 hq ▸ hp) hne
      · exact hw q (List.mem_append_left _ hq)
  · rw [if_neg hp]
    rcases acc with _ | c
    · refine ⟨some p, rfl, hp, fun w => ⟨fun hw q hq hne => ?_, fun hw => ?_⟩⟩
      · rcases List.mem_append.1 hq with hq | hq
        · exact absurd (hacc q hq) hne
        · exact List.mem_singleton.1 hq ▸ hw
      · exact hw p (List.mem_append_right _ List.mem_cons_self) hp
    · obtain ⟨d, hd, hpointer, hiff⟩ := intersect_eq h fuel hacc.1 hp
        (by have := hbound c hacc.1; have := hbound p hp; omega)
      refine ⟨some d, by dsimp only; rw [hd]; rfl, hpointer, fun w => ?_⟩
      rw [hiff, hacc.2 w]
      refine ⟨fun hw q hq hne => ?_, fun hw => ⟨fun q hq => ?_, ?_⟩⟩
      · rcases List.mem_append.1 hq with hq | hq
        · exact hw.1 q hq hne
        · exact List.mem_singleton.1 hq ▸ hw.2
      · exact hw q (List.mem_append_left _ hq)
      · exact hw p (List.mem_append_right _ List.mem_cons_self) hp

/-- All the nodes of a list meet. -/
theorem meet_eq (h : Tree rank root up) {fuel n : Nat} (hbound : ∀ v, up v ≠ none → rank v < n)
    (hfuel : 2 * n ≤ fuel) (ps : List V) :
    ∃ r, meet fuel rank up ps = some r ∧ Meets up ps r := by
  have hfold : ∀ (qs done : List V) (acc : Option V), Meets up done acc →
      ∃ r, qs.foldlM (fun acc p =>
        if up p = none then some acc
        else match acc with
          | none => some (some p)
          | some a => (intersect rank up fuel a p).map some) acc = some r ∧
        Meets up (done ++ qs) r := by
    intro qs
    induction qs with
    | nil => exact fun done acc hacc => ⟨acc, rfl, by rwa [List.append_nil]⟩
    | cons q qs ih =>
      intro done acc hacc
      obtain ⟨acc', hstep, hacc'⟩ := meets_step h hbound hfuel hacc q
      obtain ⟨r, hr, hmeets⟩ := ih (done ++ [q]) acc' hacc'
      refine ⟨r, ?_, ?_⟩
      · rw [List.foldlM_cons, hstep]
        exact hr
      · rwa [List.append_assoc] at hmeets
  exact hfold ps [] none fun p hp => absurd hp List.not_mem_nil

end

end Mirage.Dominators
