import Mirage.Lib.Dominators

/-!
# Immediate dominators by iteration

The pointers of the nodes are set to where those of their predecessors meet, in sweeps over
the nodes in reverse post-order, until a sweep changes nothing (`solve`). A predecessor
without a pointer does not count, so that in the first sweep every node takes the
predecessors ahead of it.

Moving a pointer moves everything below it, so what a sweep knows of a node changes under its
hands. Two things keep it in order.

* Nothing that dominates a node is lost (`Good.above`): what is above a node leads to it by
  edges that lead ahead, and so cannot avoid a dominator on the way (`Good.ahead`).
* A pointer only ever moves up, to a node above where it was (`Pass.moves_up`). Where it
  was, the last sweep left it above each predecessor ahead, and this sweep has moved those
  already, in the same manner.

So the pointers only go to lower numbers, and the sweeps end (`solve_finishes`), with every
pointer where those of all predecessors meet. What is above a node is then on every path to
it, and the pointers are the immediate dominators (`Fixed.immediate`).

* `reducible_iff`: the targets of the edges that do not lead ahead dominate their sources
  exactly when the edges whose targets do not dominate their sources have no cycle. The
  order does not matter to the latter.
-/

namespace Mirage.Dominators

open Relation DepthFirst

variable {V : Type*} [DecidableEq V]

section

variable (fuel : Nat) (root : V) (rank : V → Nat) (preds : V → List V)

/-- The pointer of one node, set to where those of its predecessors meet. -/
def relax (state : (V → Option V) × Bool) (b : V) : Option ((V → Option V) × Bool) :=
  if b = root then some state
  else do
    match ← meet fuel rank state.1 (preds b) with
    | some c =>
      if state.1 b ≠ some c then some (Function.update state.1 b (some c), true)
      else some state
    | none => some state

/-- One sweep, and whether it changed anything. -/
def sweep (order : List V) (up : V → Option V) : Option ((V → Option V) × Bool) :=
  order.foldlM (relax fuel root rank preds) (up, false)

/-- Sweeps until one changes nothing; `none` when the sweeps run out. -/
def solve (order : List V) : Nat → (V → Option V) → Option (V → Option V)
  | 0, _ => none
  | n + 1, up => do
    let (up, changed) ← sweep fuel root rank preds order up
    if changed then solve order n up else some up

/-- `while (true)`: at `a`, or else at the root, or else up. -/
def dominates (up : V → Option V) : Nat → V → V → Option Bool
  | 0, a, b => if a = b then some true else if b = root then some false else none
  | n + 1, a, b =>
    if a = b then some true
    else if b = root then some false
    else (up b).bind (dominates up n a)

end

/-! ### Moving a pointer -/

section

variable {root : V} {rank : V → Nat} {up : V → Option V} {b c x y : V}

/-- What is above a node stays there when a pointer moves, if it stays above that pointer. -/
theorem climbs_update (h : Climbs up x y)
    (hb : Climbs up x b → Climbs up b y → Climbs (Function.update up b (some c)) b y) :
    Climbs (Function.update up b (some c)) x y := by
  induction h using ReflTransGen.head_induction_on with
  | refl => exact ReflTransGen.refl
  | @head x z hstep hrest ih =>
    by_cases hx : x = b
    · subst hx
      exact hb .refl (.head hstep hrest)
    · refine .head ?_ (ih fun hz => hb (.head hstep hz))
      rw [Function.update_of_ne hx]
      exact hstep

/-- A node that is not below the pointer that moves has nothing new above it. -/
theorem climbs_of_update (h : Climbs (Function.update up b (some c)) x y)
    (hx : ¬ Climbs up x b) : Climbs up x y := by
  induction h using ReflTransGen.head_induction_on with
  | refl => exact ReflTransGen.refl
  | @head x z hstep _ ih =>
    have hne : x ≠ b := fun he => hx (he ▸ ReflTransGen.refl)
    rw [Function.update_of_ne hne] at hstep
    exact .head hstep (ih fun hz => hx (.head hstep hz))

/-- Nothing new is above any node when a pointer moves up. -/
theorem climbs_of_moved_up {t : V} (hb : up b = some t) (ht : Climbs up t c)
    (h : Climbs (Function.update up b (some c)) x y) : Climbs up x y := by
  induction h with
  | refl => exact ReflTransGen.refl
  | @tail z w _ hstep ih =>
    by_cases hz : z = b
    · subst hz
      rw [Function.update_self] at hstep
      obtain rfl := Option.some.inj hstep
      exact (ih.tail hb).trans ht
    · rw [Function.update_of_ne hz] at hstep
      exact ih.tail hstep

namespace Tree

theorem update (h : Tree rank root up) (hb : b ≠ root) (hc : up c ≠ none)
    (hlt : rank c < rank b) (hinj : ∀ w, up w ≠ none → rank b = rank w → b = w) :
    Tree rank root (Function.update up b (some c)) where
  top := by rw [Function.update_of_ne (Ne.symm hb), h.top]
  zero := h.zero
  down v p hp hv := by
    by_cases hvb : v = b
    · subst hvb
      rw [Function.update_self] at hp
      exact Option.some.inj hp ▸ hlt
    · rw [Function.update_of_ne hvb] at hp
      exact h.down v p hp hv
  closed v p hp := by
    by_cases hpb : p = b
    · subst hpb
      rw [Function.update_self]
      exact Option.some_ne_none c
    rw [Function.update_of_ne hpb]
    by_cases hvb : v = b
    · subst hvb
      rw [Function.update_self] at hp
      exact Option.some.inj hp ▸ hc
    · rw [Function.update_of_ne hvb] at hp
      exact h.closed v p hp
  inj v w hv hw heq := by
    by_cases hvb : v = b <;> by_cases hwb : w = b
    · rw [hvb, hwb]
    · subst hvb
      rw [Function.update_of_ne hwb] at hw
      exact hinj w hw heq
    · subst hwb
      rw [Function.update_of_ne hvb] at hv
      exact (hinj v hv heq.symm).symm
    · rw [Function.update_of_ne hvb] at hv
      rw [Function.update_of_ne hwb] at hw
      exact h.inj v w hv hw heq

/-- What is above a node before the pointer that moves stays. -/
theorem climbs_update_iff (h : Tree rank root up) (hlt : rank x < rank b) :
    Climbs (Function.update up b (some c)) x y ↔ Climbs up x y :=
  ⟨fun hx => climbs_of_update hx (h.not_climbs hlt),
    fun hx => climbs_update hx fun hxb => absurd hxb (h.not_climbs hlt)⟩

end Tree

end

/-! ### The order -/

section

variable {succ : V → List V} {root : V} {l : List V}

/-- Before the root there is nothing. -/
theorem idxOf_root (hl : Numbered succ root l) : l.idxOf root = 0 := by
  have hhead := hl.head
  rcases l with _ | ⟨v, l⟩
  · exact absurd hhead (by simp)
  · obtain rfl : v = root := Option.some.inj hhead
    exact List.idxOf_cons_self

theorem root_mem (hl : Numbered succ root l) : root ∈ l := List.mem_of_head? hl.head

/-- A path on by edges that lead ahead goes through higher numbers only. -/
theorem path_ahead (hl : Numbered succ root l) {p : List V} {x y : V} (hp : Path succ root p x)
    (h : ReflTransGen (Ahead succ l) x y) :
    ∃ q, Path succ root q y ∧ l.idxOf x ≤ l.idxOf y ∧
      ∀ z ∈ q, z ∈ p ∨ l.idxOf x < l.idxOf z := by
  induction h with
  | refl => exact ⟨p, hp, le_rfl, fun z hz => .inl hz⟩
  | @tail y w _ hstep ih =>
    obtain ⟨q, hq, hle, hz⟩ := ih
    have hlt := hstep.lt hl.nodup
    refine ⟨w :: q, hq.step hstep.1, by omega, List.forall_mem_cons.2 ⟨.inr (by omega), hz⟩⟩

/-- What leads to a node by edges that lead ahead passes its lower dominators on. -/
theorem Dominates.of_ahead (hl : Numbered succ root l) {d b v : V}
    (h : Dominates succ root d v) (hb : ReflTransGen (Ahead succ l) b v)
    (hlt : l.idxOf d < l.idxOf b) : Dominates succ root d b := by
  intro p hp
  obtain ⟨q, hq, -, hz⟩ := path_ahead hl hp hb
  exact (hz d (h q hq)).resolve_right (by omega)

/-- Every node of the order has a path to it that stays before it. -/
theorem exists_path (hl : Numbered succ root l) :
    ∀ {n : Nat} {v : V}, v ∈ l → l.idxOf v ≤ n →
      ∃ p, Path succ root p v ∧ ∀ x ∈ p, l.idxOf x ≤ l.idxOf v := by
  intro n
  induction n with
  | zero =>
    intro v hv hn
    obtain rfl : v = root := by
      have hroot := idxOf_root hl
      exact (List.idxOf_inj hv).1 (by omega)
    exact ⟨[v], .start, List.forall_mem_singleton.2 le_rfl⟩
  | succ n ih =>
    intro v hv hn
    by_cases hroot : v = root
    · subst hroot
      exact ⟨[v], .start, List.forall_mem_singleton.2 le_rfl⟩
    · obtain ⟨u, hu⟩ := hl.entered v hv hroot
      have hlt := hu.lt hl.nodup
      obtain ⟨p, hp, hx⟩ := ih (hu.2.subset List.mem_cons_self) (by omega)
      refine ⟨v :: p, hp.step hu.1, List.forall_mem_cons.2 ⟨le_rfl, fun x hxp => ?_⟩⟩
      have := hx x hxp
      omega

/-- The nodes of the order are those that can be reached. -/
theorem mem_iff_reachable (hl : Numbered succ root l) {v : V} :
    v ∈ l ↔ Reachable succ root v := by
  constructor
  · intro hv
    obtain ⟨p, hp, -⟩ := exists_path hl hv le_rfl
    exact ⟨p, hp⟩
  · rintro ⟨p, hp⟩
    induction hp with
    | start => exact root_mem hl
    | step _ hv ih => exact hl.closed _ ih _ hv

/-- A dominator does not come after what it dominates. -/
theorem Dominates.idxOf_le (hl : Numbered succ root l) {d v : V}
    (h : Dominates succ root d v) (hv : v ∈ l) : l.idxOf d ≤ l.idxOf v := by
  obtain ⟨p, hp, hx⟩ := exists_path hl hv le_rfl
  exact hx d (h p hp)

end

/-! ### What the pointers keep -/

section

variable (succ : V → List V) (root : V) (l : List V) (preds : V → List V)

/-- What holds of the pointers at any time. -/
structure Good (up : V → Option V) : Prop where
  tree : Tree l.idxOf root up
  inside : ∀ v, up v ≠ none → v ∈ l
  above : ∀ v d, up v ≠ none → Dominates succ root d v → Climbs up v d
  ahead : ∀ v p, up v = some p → v ≠ root → ReflTransGen (Ahead succ l) p v
  tight : ∀ v t y, v ≠ root → up v = some t →
    (∀ p ∈ preds v, up p ≠ none → Climbs up p y) → l.idxOf y ≤ l.idxOf t

/-- Every pointer is above the predecessors ahead of its node. -/
def Placed (up : V → Option V) : Prop :=
  ∀ v t p, v ≠ root → up v = some t → Ahead succ l p v → Climbs up p t

end

namespace Good

variable {succ : V → List V} {root : V} {l : List V} {preds : V → List V} {up : V → Option V}
  {b c : V}

/-- What is above a node leads to it. -/
theorem climbs_ahead (h : Good succ root l preds up) {v a : V} (ha : Climbs up v a) :
    ReflTransGen (Ahead succ l) a v := by
  induction ha with
  | refl => exact .refl
  | @tail x y _ hstep ih =>
    by_cases hx : x = root
    · subst hx
      obtain rfl := Option.some.inj (h.tree.top.symm.trans hstep)
      exact ih
    · exact (h.ahead x y hstep hx).trans ih

/-- What dominates the node whose pointer is set stays above it. -/
theorem above_moved (hpreds : ∀ v p, p ∈ preds v ↔ p ∈ l ∧ v ∈ succ p)
    (h : Good succ root l preds up) (hmeets : Meets up (preds b) (some c))
    (hlt : l.idxOf c < l.idxOf b) {d : V} (hd : Dominates succ root d b) :
    Climbs (Function.update up b (some c)) b d := by
  by_cases hdb : d = b
  · subst hdb
    exact .refl
  · have hc : Climbs up c d := (hmeets.2 d).2 fun p hp hpointer =>
      h.above p d hpointer (hd.pred ((hpreds b p).1 hp).2 hdb)
    exact .head (Function.update_self ..) ((h.tree.climbs_update_iff hlt).2 hc)

/-- The pointers are as good when one is set to where its predecessors meet, if that is
    above where it was. -/
theorem update (hl : Numbered succ root l) (hpreds : ∀ v p, p ∈ preds v ↔ p ∈ l ∧ v ∈ succ p)
    (h : Good succ root l preds up) (hb : b ∈ l) (hne : b ≠ root)
    (hmeets : Meets up (preds b) (some c)) {p : V} (hp : Ahead succ l p b) (hpointer : up p ≠ none)
    (hup : ∀ t, up b = some t → Climbs up t c) :
    Good succ root l preds (Function.update up b (some c)) := by
  have hpb : p ∈ preds b := (hpreds b p).2 ⟨hp.2.subset List.mem_cons_self, hp.1⟩
  have hpc : Climbs up p c := (hmeets.2 c).1 .refl p hpb hpointer
  have hlt : l.idxOf c < l.idxOf b := (h.tree.rank_le hpc).trans_lt (hp.lt hl.nodup)
  -- Nothing is above a node now that was not before.
  have hback : ∀ q y, up q ≠ none → Climbs (Function.update up b (some c)) q y → Climbs up q y := by
    intro q y hq hy
    rcases hpt : up b with _ | t
    · exact climbs_of_update hy fun hqb => h.tree.has_pointer hq hqb hpt
    · exact climbs_of_moved_up hpt (hup t hpt) hy
  have hpointers : ∀ q, up q ≠ none → Function.update up b (some c) q ≠ none := by
    intro q hq
    by_cases hqb : q = b
    · rw [hqb, Function.update_self]
      exact Option.some_ne_none c
    · rwa [Function.update_of_ne hqb]
  refine ⟨?_, fun v hv => ?_, fun v d hv hd => ?_, fun v q hq hv => ?_, fun v t y hv ht hy => ?_⟩
  · exact h.tree.update hne hmeets.1 hlt fun w hw heq => (List.idxOf_inj hb).1 heq
  · by_cases hvb : v = b
    · exact hvb ▸ hb
    · rw [Function.update_of_ne hvb] at hv
      exact h.inside v hv
  · by_cases hvb : v = b
    · subst hvb
      exact h.above_moved hpreds hmeets hlt hd
    rw [Function.update_of_ne hvb] at hv
    refine climbs_update (h.above v d hv hd) fun hvb hbd => ?_
    by_cases hdb : d = b
    · subst hdb
      exact .refl
    · have hdlt := h.tree.rank_lt hbd hdb
      exact h.above_moved hpreds hmeets hlt (hd.of_ahead hl (h.climbs_ahead hvb) hdlt)
  · by_cases hvb : v = b
    · subst hvb
      rw [Function.update_self] at hq
      exact Option.some.inj hq ▸ (h.climbs_ahead hpc).tail hp
    · rw [Function.update_of_ne hvb] at hq
      exact h.ahead v q hq hv
  · have hold : ∀ q ∈ preds v, up q ≠ none → Climbs up q y := fun q hq hqp =>
      hback q y hqp (hy q hq (hpointers q hqp))
    by_cases hvb : v = b
    · subst hvb
      rw [Function.update_self] at ht
      exact Option.some.inj ht ▸ h.tree.rank_le ((hmeets.2 y).2 hold)
    · rw [Function.update_of_ne hvb] at ht
      exact h.tight v t y hv ht hold

end Good

/-! ### A sweep -/

/-- The pointers while a sweep that began with `old` has set those of `done`. -/
structure Pass (succ : V → List V) (root : V) (l : List V) (preds : V → List V)
    (old up : V → Option V) (done : List V) : Prop where
  good : Good succ root l preds up
  same : ∀ v, v ∉ done → up v = old v
  pointer : ∀ v ∈ done, up v ≠ none
  lifted : ∀ v ∈ done, v ≠ root → ∀ t c, old v = some t → up v = some c → Climbs up t c
  placed : ∀ v ∈ done, v ≠ root → ∀ t p, up v = some t → Ahead succ l p v → Climbs up p t

section

variable {l done rest : List V} {b x : V}

omit [DecidableEq V] in
/-- A node is not among those before it. -/
theorem notMem_before (hl : l.Nodup) (hsplit : done ++ b :: rest = l) : b ∉ done := by
  subst hsplit
  exact fun h => (List.nodup_append.1 hl).2.2 b h b List.mem_cons_self rfl

/-- What has a lower number than a node comes before it. -/
theorem mem_of_idxOf_lt (hl : l.Nodup) (hsplit : done ++ b :: rest = l)
    (hlt : l.idxOf x < l.idxOf b) : x ∈ done := by
  have hb := notMem_before hl hsplit
  subst hsplit
  by_contra hx
  rw [List.idxOf_append_of_notMem hx, List.idxOf_append_of_notMem hb, List.idxOf_cons_self] at hlt
  omega

/-- What is in front of a node has a lower number. -/
theorem idxOf_lt_of_mem (hl : l.Nodup) (hsplit : done ++ b :: rest = l) (hx : x ∈ done) :
    l.idxOf x < l.idxOf b := by
  have hb := notMem_before hl hsplit
  subst hsplit
  rw [List.idxOf_append_of_mem hx, List.idxOf_append_of_notMem hb, List.idxOf_cons_self]
  have := List.idxOf_lt_length_of_mem hx
  omega

end

namespace Pass

variable {succ : V → List V} {root : V} {l : List V} {preds : V → List V}
  {old up : V → Option V} {done rest : List V} {b c : V}

/-- What is above a node of `done` and not below where it was in the last sweep is above that
    place too. -/
theorem climbs_old (h : Pass succ root l preds old up done) (hold : Tree l.idxOf root old)
    (hdone : ∀ v ∈ done, ∀ w, old v = some w → v ≠ root → w ∈ done) {x t y : V}
    (hx : x ∈ done) (ht : Climbs old x t) (hy : Climbs up x y) (hle : l.idxOf y ≤ l.idxOf t) :
    Climbs up t y := by
  induction ht using ReflTransGen.head_induction_on with
  | refl => exact hy
  | @head x z hstep hrest ih =>
    by_cases hroot : x = root
    · subst hroot
      obtain rfl := Option.some.inj (hold.top.symm.trans hstep)
      exact ih hx hy
    · obtain ⟨c, hc⟩ := Option.ne_none_iff_exists'.1 (h.pointer x hx)
      have hlt := hold.down x z hstep hroot
      have hzt := hold.rank_le hrest
      have hyx : y ≠ x := fun he => by
        rw [he] at hle
        omega
      have hcy : Climbs up c y := hy.of_ne hyx hc
      exact ih (hdone x hx z hstep hroot) ((h.lifted x hx hroot z c hstep hc).trans hcy)

/-- A pointer only moves up. -/
theorem moves_up (hl : Numbered succ root l) (hsplit : done ++ b :: rest = l)
    (h : Pass succ root l preds old up done) (hold : Good succ root l preds old)
    (hplaced : Placed succ root l old) (hne : b ≠ root) (hmeets : Meets up (preds b) (some c))
    {p : V} (hp : Ahead succ l p b) (hpc : Climbs up p c) {t : V} (ht : up b = some t) :
    Climbs up t c := by
  have hb := notMem_before hl.nodup hsplit
  have htold : old b = some t := (h.same b hb).symm.trans ht
  have hlower : ∀ x, l.idxOf x < l.idxOf b → x ∈ done := fun x hx =>
    mem_of_idxOf_lt hl.nodup hsplit hx
  refine h.climbs_old hold.tree (fun v hv w hw hroot => ?_) (hlower p (hp.lt hl.nodup))
    (hplaced b t p hne htold hp) hpc ?_
  · have hvb : l.idxOf v < l.idxOf b := idxOf_lt_of_mem hl.nodup hsplit hv
    exact hlower w ((hold.tree.down v w hw hroot).trans hvb)
  · exact h.good.tight b t c hne ht ((hmeets.2 c).1 .refl)

/-- A node that keeps its pointer. -/
theorem keep (h : Pass succ root l preds old up done) (hb : b ∉ done) (hpointer : up b ≠ none)
    (hplaced : b ≠ root → ∀ t p, up b = some t → Ahead succ l p b → Climbs up p t) :
    Pass succ root l preds old up (done ++ [b]) := by
  refine ⟨h.good, fun v hv => h.same v fun hd => hv (List.mem_append_left _ hd), fun v hv => ?_,
    fun v hv hne t c ht hc => ?_, fun v hv hne t p ht hp => ?_⟩
  · rcases List.mem_append.1 hv with hv | hv
    · exact h.pointer v hv
    · exact List.mem_singleton.1 hv ▸ hpointer
  · rcases List.mem_append.1 hv with hv | hv
    · exact h.lifted v hv hne t c ht hc
    · obtain rfl := List.mem_singleton.1 hv
      obtain rfl : t = c := Option.some.inj (ht.symm.trans ((h.same v hb).symm.trans hc))
      exact .refl
  · rcases List.mem_append.1 hv with hv | hv
    · exact h.placed v hv hne t p ht hp
    · obtain rfl := List.mem_singleton.1 hv
      exact hplaced hne t p ht hp

/-- A node whose pointer moves up to where its predecessors meet. -/
theorem move (hl : Numbered succ root l) (hsplit : done ++ b :: rest = l)
    (h : Pass succ root l preds old up done) (hold : Good succ root l preds old)
    (hgood : Good succ root l preds (Function.update up b (some c)))
    (hlt : l.idxOf c < l.idxOf b) (hup : ∀ t, up b = some t → Climbs up t c)
    (hplaced : ∀ p, Ahead succ l p b → Climbs up p c) :
    Pass succ root l preds old (Function.update up b (some c)) (done ++ [b]) := by
  have hb := notMem_before hl.nodup hsplit
  have hbefore : ∀ v ∈ done, l.idxOf v < l.idxOf b := fun v hv =>
    idxOf_lt_of_mem hl.nodup hsplit hv
  have hother : ∀ v ∈ done, v ≠ b := fun v hv he => hb (he ▸ hv)
  have hkeeps : ∀ x y, l.idxOf x < l.idxOf b → Climbs up x y →
      Climbs (Function.update up b (some c)) x y := fun x y hx hy =>
    (h.good.tree.climbs_update_iff hx).2 hy
  refine ⟨hgood, fun v hv => ?_, fun v hv => ?_, fun v hv hne t d ht hd => ?_,
    fun v hv hne t p ht hp => ?_⟩
  · have hvb : v ≠ b := fun he => hv (he ▸ List.mem_append_right _ List.mem_cons_self)
    rw [Function.update_of_ne hvb]
    exact h.same v fun hd => hv (List.mem_append_left _ hd)
  · rcases List.mem_append.1 hv with hv | hv
    · rw [Function.update_of_ne (hother v hv)]
      exact h.pointer v hv
    · rw [List.mem_singleton.1 hv, Function.update_self]
      exact Option.some_ne_none c
  · rcases List.mem_append.1 hv with hv | hv
    · rw [Function.update_of_ne (hother v hv)] at hd
      have htlt := hold.tree.down v t ht hne
      exact hkeeps t d (htlt.trans (hbefore v hv)) (h.lifted v hv hne t d ht hd)
    · obtain rfl := List.mem_singleton.1 hv
      rw [Function.update_self] at hd
      obtain rfl := Option.some.inj hd
      have htlt := hold.tree.down v t ht hne
      exact hkeeps t c htlt (hup t ((h.same v hb).trans ht))
  · have hpv := hp.lt hl.nodup
    rcases List.mem_append.1 hv with hv | hv
    · rw [Function.update_of_ne (hother v hv)] at ht
      exact hkeeps p t (hpv.trans (hbefore v hv)) (h.placed v hv hne t p ht hp)
    · obtain rfl := List.mem_singleton.1 hv
      rw [Function.update_self] at ht
      exact Option.some.inj ht ▸ hkeeps p c hpv (hplaced p hp)

end Pass

section

variable {succ : V → List V} {root : V} {l : List V} {preds : V → List V}
  {old up : V → Option V} {fuel : Nat}

/-- The number a pointer goes to; the highest of all when there is none. -/
def height (l : List V) : Option V → Nat
  | none => l.length
  | some t => l.idxOf t

/-- What a sweep that changes something lowers. -/
def weight (l : List V) (up : V → Option V) : Nat := ∑ v ∈ l.toFinset, height l (up v)

theorem weight_update_lt {b c : V} (hb : b ∈ l) (hlt : l.idxOf c < height l (up b)) :
    weight l (Function.update up b (some c)) < weight l up := by
  refine Finset.sum_lt_sum (fun v _ => ?_) ⟨b, List.mem_toFinset.2 hb, ?_⟩
  · by_cases hv : v = b
    · subst hv
      rw [Function.update_self]
      exact hlt.le
    · rw [Function.update_of_ne hv]
  · rw [Function.update_self]
    exact hlt

/-- The pointer of a node is where its predecessors meet. -/
def Met (preds : V → List V) (up : V → Option V) (b : V) : Prop :=
  ∃ c, up b = some c ∧ Meets up (preds b) (some c)

/-- How far a sweep has got: nothing to change in what it has seen, or something changed. -/
def Progress (root : V) (l : List V) (preds : V → List V) (old up : V → Option V)
    (changed : Bool) (done : List V) : Prop :=
  (changed = false ∧ up = old ∧ ∀ b ∈ done, b ≠ root → Met preds old b) ∨
    (changed = true ∧ weight l up < weight l old)

/-- A node of a sweep. -/
theorem Pass.relax (hl : Numbered succ root l)
    (hpreds : ∀ v p, p ∈ preds v ↔ p ∈ l ∧ v ∈ succ p) (hfuel : 2 * l.length ≤ fuel)
    (hold : Good succ root l preds old) (hplaced : Placed succ root l old)
    {done rest : List V} {b : V} (hsplit : done ++ b :: rest = l) {changed : Bool}
    (h : Pass succ root l preds old up done)
    (hprogress : Progress root l preds old up changed done) :
    ∃ up' changed', relax fuel root l.idxOf preds (up, changed) b = some (up', changed') ∧
      Pass succ root l preds old up' (done ++ [b]) ∧
      Progress root l preds old up' changed' (done ++ [b]) := by
  have hb := notMem_before hl.nodup hsplit
  have hbl : b ∈ l := hsplit ▸ List.mem_append_right _ List.mem_cons_self
  by_cases hroot : b = root
  · subst hroot
    refine ⟨up, changed, if_pos rfl, h.keep hb ?_ fun hne => absurd rfl hne, ?_⟩
    · rw [h.good.tree.top]
      exact Option.some_ne_none b
    · refine hprogress.imp (fun ⟨hc, hu, hd⟩ => ⟨hc, hu, fun v hv hne => ?_⟩) id
      rcases List.mem_append.1 hv with hv | hv
      · exact hd v hv hne
      · exact absurd (List.mem_singleton.1 hv) hne
  -- All predecessors ahead have pointers, and there is one.
  have hready : ∀ p, Ahead succ l p b → p ∈ preds b ∧ up p ≠ none := fun p hp =>
    ⟨(hpreds b p).2 ⟨hp.2.subset List.mem_cons_self, hp.1⟩,
      h.pointer p (mem_of_idxOf_lt hl.nodup hsplit (hp.lt hl.nodup))⟩
  obtain ⟨p, hp⟩ := hl.entered b hbl hroot
  have hbound : ∀ v, up v ≠ none → l.idxOf v < l.length := fun v hv =>
    List.idxOf_lt_length_of_mem (h.good.inside v hv)
  obtain ⟨r, hr, hmeets⟩ := meet_eq h.good.tree hbound hfuel (preds b)
  rcases r with _ | c
  · exact absurd (hmeets p (hready p hp).1) (hready p hp).2
  have habove : ∀ q, Ahead succ l q b → Climbs up q c := fun q hq =>
    (hmeets.2 c).1 .refl q (hready q hq).1 (hready q hq).2
  have hlt : l.idxOf c < l.idxOf b :=
    (h.good.tree.rank_le (habove p hp)).trans_lt (hp.lt hl.nodup)
  rw [Dominators.relax, if_neg hroot, hr]
  show ∃ up' changed', (if up b ≠ some c then _ else _) = _ ∧ _
  by_cases hsame : up b = some c
  · have hpointer : up b ≠ none := by
      rw [hsame]
      exact Option.some_ne_none c
    refine ⟨up, changed, if_neg (not_not.2 hsame), h.keep hb hpointer fun _ t q ht hq => ?_, ?_⟩
    · exact Option.some.inj (hsame.symm.trans ht) ▸ habove q hq
    · refine hprogress.imp (fun ⟨hc, hu, hd⟩ => ⟨hc, hu, fun v hv hne => ?_⟩) id
      rcases List.mem_append.1 hv with hv | hv
      · exact hd v hv hne
      · exact List.mem_singleton.1 hv ▸ hu ▸ ⟨c, hsame, hmeets⟩
  · have hup : ∀ t, up b = some t → Climbs up t c := fun t ht =>
      h.moves_up hl hsplit hold hplaced hroot hmeets hp (habove p hp) ht
    have hgood := h.good.update hl hpreds hbl hroot hmeets hp (hready p hp).2 hup
    refine ⟨_, true, if_pos hsame, h.move hl hsplit hold hgood hlt hup habove, .inr ⟨rfl, ?_⟩⟩
    have hlower : l.idxOf c < height l (up b) := by
      rcases ht : up b with _ | t
      · exact List.idxOf_lt_length_of_mem (h.good.inside c hmeets.1)
      · refine h.good.tree.rank_lt (hup t ht) fun he => hsame ?_
        rw [ht, he]
    have hweight := weight_update_lt hbl hlower
    rcases hprogress with ⟨-, rfl, -⟩ | ⟨-, hw⟩
    · exact hweight
    · exact hweight.trans hw

/-- A sweep either finds every pointer where it should be, or lowers the weight. -/
theorem sweep_eq (hl : Numbered succ root l)
    (hpreds : ∀ v p, p ∈ preds v ↔ p ∈ l ∧ v ∈ succ p) (hfuel : 2 * l.length ≤ fuel)
    (hold : Good succ root l preds old) (hplaced : Placed succ root l old) :
    ∃ up changed, sweep fuel root l.idxOf preds l old = some (up, changed) ∧
      Pass succ root l preds old up l ∧ Progress root l preds old up changed l := by
  have hrun : ∀ (rest done : List V) (up : V → Option V) (changed : Bool), done ++ rest = l →
      Pass succ root l preds old up done → Progress root l preds old up changed done →
      ∃ up' changed', rest.foldlM (Dominators.relax fuel root l.idxOf preds) (up, changed) =
          some (up', changed') ∧
        Pass succ root l preds old up' l ∧ Progress root l preds old up' changed' l := by
    intro rest
    induction rest with
    | nil =>
      intro done up changed hsplit h hprogress
      obtain rfl : done = l := by rwa [List.append_nil] at hsplit
      exact ⟨up, changed, rfl, h, hprogress⟩
    | cons b rest ih =>
      intro done up changed hsplit h hprogress
      obtain ⟨up', changed', hrelax, h', hprogress'⟩ :=
        h.relax hl hpreds hfuel hold hplaced hsplit hprogress
      obtain ⟨up'', changed'', hrest, hend⟩ := ih (done ++ [b]) up' changed'
        (by rw [List.append_assoc]; exact hsplit) h' hprogress'
      refine ⟨up'', changed'', ?_, hend⟩
      rw [List.foldlM_cons, hrelax]
      exact hrest
  refine hrun l [] old false rfl ⟨hold, fun _ _ => rfl, ?_, ?_, ?_⟩ (.inl ⟨rfl, rfl, ?_⟩)
  · exact fun v hv => absurd hv List.not_mem_nil
  · exact fun v hv => absurd hv List.not_mem_nil
  · exact fun v hv => absurd hv List.not_mem_nil
  · exact fun v hv => absurd hv List.not_mem_nil

/-! ### The end -/

/-- The pointers when a sweep changes nothing. -/
structure Fixed (succ : V → List V) (root : V) (l : List V) (preds : V → List V)
    (up : V → Option V) : Prop where
  good : Good succ root l preds up
  pointer : ∀ v ∈ l, up v ≠ none
  met : ∀ b ∈ l, b ≠ root → Met preds up b

/-- Sweeps end, with enough of them for the weight of the pointers. -/
theorem solve_of_weight (hl : Numbered succ root l)
    (hpreds : ∀ v p, p ∈ preds v ↔ p ∈ l ∧ v ∈ succ p) (hfuel : 2 * l.length ≤ fuel) :
    ∀ {n : Nat} {old : V → Option V}, Good succ root l preds old → Placed succ root l old →
      weight l old < n →
      ∃ up, solve fuel root l.idxOf preds l n old = some up ∧ Fixed succ root l preds up := by
  intro n
  induction n with
  | zero => intro old _ _ hn; omega
  | succ n ih =>
    intro old hgood hplaced hn
    obtain ⟨up, changed, hsweep, hpass, hprogress⟩ := sweep_eq hl hpreds hfuel hgood hplaced
    rcases hprogress with ⟨rfl, rfl, hmet⟩ | ⟨rfl, hless⟩
    · refine ⟨up, ?_, hgood, hpass.pointer, hmet⟩
      rw [solve, hsweep]
      rfl
    · have hplaced' : Placed succ root l up := fun v t p hne ht hp =>
        hpass.placed v (hp.2.subset (by simp)) hne t p ht hp
      obtain ⟨end_, hend, hfixed⟩ := ih hpass.good hplaced' (by omega)
      refine ⟨end_, ?_, hfixed⟩
      rw [solve, hsweep]
      exact hend

/-- The pointers to begin with. -/
def initial (root : V) : V → Option V := Function.update (fun _ => none) root (some root)

theorem good_initial (hl : Numbered succ root l) : Good succ root l preds (initial root) := by
  have hpointer : ∀ v t, initial root v = some t → v = root ∧ t = root := by
    intro v t ht
    by_cases hv : v = root
    · subst hv
      rw [initial, Function.update_self] at ht
      exact ⟨rfl, (Option.some.inj ht).symm⟩
    · rw [initial, Function.update_of_ne hv] at ht
      exact absurd ht (by simp)
  have hroot : ∀ v, initial root v ≠ none → v = root := fun v hv => by
    obtain ⟨t, ht⟩ := Option.ne_none_iff_exists'.1 hv
    exact (hpointer v t ht).1
  refine ⟨⟨Function.update_self .., idxOf_root hl, ?_, ?_, ?_⟩, ?_, ?_, ?_, ?_⟩
  · exact fun v p hp hv => absurd (hpointer v p hp).1 hv
  · intro v p hp
    rw [(hpointer v p hp).2, initial, Function.update_self]
    exact Option.some_ne_none root
  · exact fun v w hv hw _ => (hroot v hv).trans (hroot w hw).symm
  · exact fun v hv => hroot v hv ▸ root_mem hl
  · intro v d hv hd
    obtain rfl := hroot v hv
    obtain rfl := List.mem_singleton.1 (hd [v] .start)
    exact .refl
  · exact fun v p hp hv => absurd (hpointer v p hp).1 hv
  · exact fun v t y hv ht => absurd (hpointer v t ht).1 hv

/-- The sweeps end, from the pointers there are to begin with. -/
theorem solve_finishes (hl : Numbered succ root l)
    (hpreds : ∀ v p, p ∈ preds v ↔ p ∈ l ∧ v ∈ succ p) (hfuel : 2 * l.length ≤ fuel) {n : Nat}
    (hn : weight l (initial root) < n) :
    ∃ up, solve fuel root l.idxOf preds l n (initial root) = some up ∧
      Fixed succ root l preds up := by
  refine solve_of_weight hl hpreds hfuel (good_initial hl) (fun v t p hv ht _ => ?_) hn
  rw [initial, Function.update_of_ne hv] at ht
  exact absurd ht (by simp)

namespace Fixed

/-- What is above a node is on every path to it. -/
theorem mem_path (hpreds : ∀ v p, p ∈ preds v ↔ p ∈ l ∧ v ∈ succ p)
    (hl : Numbered succ root l) (h : Fixed succ root l preds up) {p : List V} {v a : V}
    (hp : Path succ root p v) (ha : Climbs up v a) : a ∈ p := by
  induction hp with
  | start => exact h.good.tree.climbs_root ha ▸ List.mem_cons_self
  | @step p u v hp hv ih =>
    by_cases hav : a = v
    · exact hav ▸ List.mem_cons_self
    refine List.mem_cons_of_mem _ ?_
    by_cases hroot : v = root
    · subst hroot
      exact absurd (h.good.tree.climbs_root ha) hav
    · have hu : u ∈ l := (mem_iff_reachable hl).2 ⟨p, hp⟩
      obtain ⟨c, hc, -, hmeets⟩ := h.met v (hl.closed u hu v hv) hroot
      exact ih (((hmeets c).1 .refl u ((hpreds v u).2 ⟨hu, hv⟩) (h.pointer u hu)).trans
        (ha.of_ne hav hc))

/-- Above a node are its dominators. -/
theorem climbs_iff (hpreds : ∀ v p, p ∈ preds v ↔ p ∈ l ∧ v ∈ succ p)
    (hl : Numbered succ root l) (h : Fixed succ root l preds up) {v a : V} (hv : v ∈ l) :
    Climbs up v a ↔ Dominates succ root a v :=
  ⟨fun ha _ hp => h.mem_path hpreds hl hp ha, h.good.above v a (h.pointer v hv)⟩

/-- The pointers are the immediate dominators. -/
theorem immediate (hpreds : ∀ v p, p ∈ preds v ↔ p ∈ l ∧ v ∈ succ p)
    (hl : Numbered succ root l) (h : Fixed succ root l preds up) {v : V} (hv : v ∈ l)
    (hroot : v ≠ root) : ∃ d, up v = some d ∧ ImmediateDominator succ root d v := by
  obtain ⟨d, hd, hpointer, -⟩ := h.met v hv hroot
  have hlt := h.good.tree.down v d hd hroot
  refine ⟨d, hd, (h.climbs_iff hpreds hl hv).1 (.single hd), fun he => ?_, fun a ha hne => ?_⟩
  · rw [he] at hlt
    omega
  · have hclimbs := (h.climbs_iff hpreds hl hv).2 ha
    exact (h.climbs_iff hpreds hl (h.good.inside d hpointer)).1 (hclimbs.of_ne hne hd)

/-- There are no two ways the sweeps can end. -/
theorem unique (hpreds : ∀ v p, p ∈ preds v ↔ p ∈ l ∧ v ∈ succ p)
    (hl : Numbered succ root l) {up' : V → Option V} (h : Fixed succ root l preds up)
    (h' : Fixed succ root l preds up') : up = up' := by
  funext v
  by_cases hv : v ∈ l
  · by_cases hroot : v = root
    · rw [hroot, h.good.tree.top, h'.good.tree.top]
    · obtain ⟨d, hd, hdom⟩ := h.immediate hpreds hl hv hroot
      obtain ⟨d', hd', hdom'⟩ := h'.immediate hpreds hl hv hroot
      have hmem : d ∈ l := h.good.inside d (h.good.tree.closed v d hd)
      have hmem' : d' ∈ l := h'.good.inside d' (h'.good.tree.closed v d' hd')
      have hle := (hdom'.closest d hdom.dominates hdom.ne).idxOf_le hl hmem'
      have hle' := (hdom.closest d' hdom'.dominates hdom'.ne).idxOf_le hl hmem
      have hsame : d = d' := (List.idxOf_inj hmem).1 (le_antisymm hle hle')
      rw [hd, hd', hsame]
  · have hnone : up v = none := by_contra fun hne => hv (h.good.inside v hne)
    have hnone' : up' v = none := by_contra fun hne => hv (h'.good.inside v hne)
    rw [hnone, hnone']

/-- The walk up the pointers finds out whether one node dominates another. -/
theorem dominates_eq (hpreds : ∀ v p, p ∈ preds v ↔ p ∈ l ∧ v ∈ succ p)
    (hl : Numbered succ root l) (h : Fixed succ root l preds up) (a : V) :
    ∀ {n : Nat} {v : V}, v ∈ l → l.idxOf v ≤ n →
      ∃ r, dominates root up n a v = some r ∧ (r = true ↔ Dominates succ root a v) := by
  have hwalk : ∀ {n : Nat} {v : V}, v ∈ l → l.idxOf v ≤ n →
      ∃ r, dominates root up n a v = some r ∧ (r = true ↔ Climbs up v a) := by
    intro n
    induction n with
    | zero =>
      intro v hv hn
      obtain rfl : v = root := by
        have hroot := idxOf_root hl
        exact (List.idxOf_inj hv).1 (by omega)
      rw [dominates]
      by_cases ha : a = v
      · subst ha
        exact ⟨true, if_pos rfl, iff_of_true rfl .refl⟩
      · refine ⟨false, by rw [if_neg ha, if_pos rfl], ?_⟩
        exact iff_of_false (by simp) fun hc => ha (h.good.tree.climbs_root hc)
    | succ n ih =>
      intro v hv hn
      rw [dominates]
      by_cases ha : a = v
      · subst ha
        exact ⟨true, if_pos rfl, iff_of_true rfl .refl⟩
      rw [if_neg ha]
      by_cases hroot : v = root
      · subst hroot
        exact ⟨false, if_pos rfl,
          iff_of_false (by simp) fun hc => ha (h.good.tree.climbs_root hc)⟩
      · obtain ⟨d, hd, -⟩ := h.met v hv hroot
        have hlt := h.good.tree.down v d hd hroot
        obtain ⟨r, hr, hiff⟩ := ih (h.good.inside d (h.good.tree.closed v d hd)) (by omega)
        refine ⟨r, by rw [if_neg hroot, hd]; exact hr, hiff.trans ⟨fun hc => .head hd hc,
          fun hc => hc.of_ne ha hd⟩⟩
  intro n v hv hn
  obtain ⟨r, hr, hiff⟩ := hwalk hv hn
  exact ⟨r, hr, hiff.trans (h.climbs_iff hpreds hl hv)⟩

end Fixed

/-! ### Reducibility -/

/-- An edge that leads ahead does not lead to a dominator. -/
theorem not_dominates_of_ahead (hl : Numbered succ root l) {x y : V} (h : Ahead succ l x y) :
    ¬ Dominates succ root y x := fun hd => by
  have hle := hd.idxOf_le hl (h.2.subset List.mem_cons_self)
  have hlt := h.lt hl.nodup
  omega

/-- Whether the edges that do not lead ahead lead to dominators is no matter of the order. -/
theorem reducible_iff (hl : Numbered succ root l) :
    (∀ b ∈ l, ∀ v ∈ succ b, l.idxOf v ≤ l.idxOf b → Dominates succ root v b) ↔
      Reducible succ root := by
  constructor
  · intro h v hv hcycle
    have hrise : ∀ {x y : V}, x ∈ l →
        TransGen (fun x y => y ∈ succ x ∧ ¬ Dominates succ root y x) x y →
        y ∈ l ∧ l.idxOf x < l.idxOf y := by
      intro x y hx hxy
      induction hxy with
      | single hstep =>
        exact ⟨hl.closed x hx _ hstep.1, not_le.1 fun hle => hstep.2 (h x hx _ hstep.1 hle)⟩
      | tail _ hstep ih =>
        exact ⟨hl.closed _ ih.1 _ hstep.1,
          ih.2.trans (not_le.1 fun hle => hstep.2 (h _ ih.1 _ hstep.1 hle))⟩
    exact absurd (hrise ((mem_iff_reachable hl).2 hv) hcycle).2 (lt_irrefl _)
  · intro h b hb v hv hle
    by_contra hdom
    have hback : ReflTransGen (fun x y => y ∈ succ x ∧ ¬ Dominates succ root y x) v b :=
      ReflTransGen.mono (fun x y hxy => ⟨hxy.1, not_dominates_of_ahead hl hxy⟩) v b
        (hl.back b hb v hv hle)
    exact h v ((mem_iff_reachable hl).1 (hl.closed b hb v hv)) (TransGen.tail' hback ⟨hv, hdom⟩)

end

end Mirage.Dominators
