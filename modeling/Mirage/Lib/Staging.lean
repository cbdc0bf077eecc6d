import Mathlib.Data.List.Nodup
import Mathlib.Data.Set.Basic

/-!
# Parallel assignment through staging

Every variable has a home, and some have a staging place as well (`Place`). The
assignment of sources to targets is done one copy after another: each source into the
staging place of its target, then each staging place into the home of its target. A
copy must leave the places that are *watched* alone, other than its destination
(`Copied`); a home that is not watched may be shared with others and get lost.

* `Moved.spec`: a sequence of copies, none of whose sources is one of the destinations.
* `parallel`: both sequences together assign to all targets at once, whatever the
  sources are (`Parallel`).
-/

namespace Mirage.Staging

variable {σ ι V : Type*}

/-- Where the content of a variable is found. -/
inductive Place (ι : Type*)
  | home (v : ι)
  | staging (v : ι)

variable (get : Place ι → σ → V)

/-- One copy, from one state to the next. -/
structure Copied (watched : Set (Place ι)) (src dst : Place ι) (s t : σ) : Prop where
  value : get dst t = get src s
  other : ∀ k ∈ watched, k ≠ dst → get k t = get k s

/-- Copies one after the other. -/
def Moved (watched : Set (Place ι)) : List (Place ι × Place ι) → σ → σ → Prop
  | [], s, t => t = s
  | (src, dst) :: l, s, t => ∃ u, Copied get watched src dst s u ∧ Moved watched l u t

/-- The targets have got what the sources had, and other variables what they had. -/
structure Parallel (l : List (ι × ι)) (kept : Set ι) (s t : σ) : Prop where
  value : ∀ p ∈ l, get (.home p.2) t = get (.home p.1) s
  other : ∀ v ∈ kept, v ∉ l.map Prod.snd → get (.home v) t = get (.home v) s

variable {get} {watched watched' : Set (Place ι)}

theorem Moved.mono {l : List (Place ι × Place ι)} {s t : σ} (h : Moved get watched l s t)
    (hsub : watched' ⊆ watched) : Moved get watched' l s t := by
  induction l generalizing s with
  | nil => exact h
  | cons p l ih =>
    obtain ⟨u, hcopied, hmoved⟩ := h
    exact ⟨u, ⟨hcopied.value, fun k hk => hcopied.other k (hsub hk)⟩, ih hmoved⟩

/-- What a sequence of copies does. -/
theorem Moved.spec {l : List (Place ι × Place ι)} {s t : σ} (h : Moved get watched l s t)
    (hnodup : (l.map Prod.snd).Nodup)
    (hl : ∀ p ∈ l, p.1 ∈ watched ∧ p.2 ∈ watched ∧ p.1 ∉ l.map Prod.snd) :
    (∀ p ∈ l, get p.2 t = get p.1 s) ∧
      ∀ k ∈ watched, k ∉ l.map Prod.snd → get k t = get k s := by
  induction l generalizing s with
  | nil =>
    cases h
    exact ⟨fun p hp => absurd hp List.not_mem_nil, fun k _ _ => rfl⟩
  | cons p l ih =>
    obtain ⟨src, dst⟩ := p
    obtain ⟨u, hcopy, hrest⟩ := h
    rw [List.map_cons, List.nodup_cons] at hnodup
    have hl' : ∀ p ∈ l, p.1 ∈ watched ∧ p.2 ∈ watched ∧ p.1 ∉ l.map Prod.snd := fun p hp =>
      have ⟨h1, h2, h3⟩ := hl p (List.mem_cons_of_mem _ hp)
      ⟨h1, h2, fun hmem => h3 (List.mem_cons_of_mem _ hmem)⟩
    obtain ⟨hvalue, hother⟩ := ih hrest hnodup.2 hl'
    refine ⟨fun p hp => ?_, fun k hk hne => ?_⟩
    · rcases List.mem_cons.mp hp with rfl | hp
      · -- the later copies leave the first destination alone
        rw [hother dst (hl _ List.mem_cons_self).2.1 hnodup.1, hcopy.value]
      · obtain ⟨hwatched, -, hsrc⟩ := hl p (List.mem_cons_of_mem _ hp)
        rw [hvalue p hp]
        exact hcopy.other p.1 hwatched fun heq => hsrc (heq ▸ List.mem_cons_self)
    · rw [List.map_cons, List.mem_cons, not_or] at hne
      rw [hother k hk hne.2, hcopy.other k hk hne.1]

/-- The homes of some variables, and the staging places of others. -/
def watch (homes staged : Set ι) : Set (Place ι) :=
  {k | match k with
    | .home v => v ∈ homes
    | .staging v => v ∈ staged}

@[simp] theorem home_mem_watch {homes staged : Set ι} {v : ι} :
    Place.home v ∈ watch homes staged ↔ v ∈ homes := Iff.rfl

@[simp] theorem staging_mem_watch {homes staged : Set ι} {v : ι} :
    Place.staging v ∈ watch homes staged ↔ v ∈ staged := Iff.rfl

/-- The copies into staging. -/
def intoStaging (l : List (ι × ι)) : List (Place ι × Place ι) :=
  l.map fun p => (.home p.1, .staging p.2)

/-- The copies out of staging. -/
def outOfStaging (l : List (ι × ι)) : List (Place ι × Place ι) :=
  l.map fun p => (.staging p.2, .home p.2)

/-- Through staging the assignment is parallel. The homes of the sources need to be safe
    only before the first home is written. -/
theorem parallel {l : List (ι × ι)} {before after : Set ι} {s u t : σ}
    (hnodup : (l.map Prod.snd).Nodup) (hsrc : ∀ p ∈ l, p.1 ∈ before)
    (hdst : ∀ p ∈ l, p.2 ∈ after)
    (hinto : Moved get (watch before {v | v ∈ l.map Prod.snd}) (intoStaging l) s u)
    (hout : Moved get (watch after {v | v ∈ l.map Prod.snd}) (outOfStaging l) u t) :
    Parallel get l (before ∩ after) s t := by
  have hdsts : (intoStaging l).map Prod.snd = (l.map Prod.snd).map Place.staging := by
    simp [intoStaging]
  have hdsts' : (outOfStaging l).map Prod.snd = (l.map Prod.snd).map Place.home := by
    simp [outOfStaging]
  have hhome : ∀ v : ι, Place.home v ∉ (intoStaging l).map Prod.snd := by
    simp [hdsts]
  obtain ⟨hin, hinOther⟩ := hinto.spec
    (hdsts ▸ hnodup.map fun v w h => by cases h; rfl) fun q hq => by
      obtain ⟨p, hp, rfl⟩ := List.mem_map.mp hq
      exact ⟨hsrc p hp, List.mem_map.mpr ⟨p, hp, rfl⟩, hhome p.1⟩
  obtain ⟨hval, hvalOther⟩ := hout.spec
    (hdsts' ▸ hnodup.map fun v w h => by cases h; rfl) fun q hq => by
      obtain ⟨p, hp, rfl⟩ := List.mem_map.mp hq
      exact ⟨List.mem_map.mpr ⟨p, hp, rfl⟩, hdst p hp, by simp [hdsts']⟩
  refine ⟨fun p hp => ?_, fun v hv hne => ?_⟩
  · rw [hval (.staging p.2, .home p.2) (List.mem_map.mpr ⟨p, hp, rfl⟩),
      hin (.home p.1, .staging p.2) (List.mem_map.mpr ⟨p, hp, rfl⟩)]
  · rw [hvalOther (.home v) hv.2 fun hmem => ?_, hinOther (.home v) hv.1 (hhome v)]
    rw [hdsts', List.mem_map] at hmem
    obtain ⟨w, hw, heq⟩ := hmem
    cases heq
    exact hne hw

end Mirage.Staging
