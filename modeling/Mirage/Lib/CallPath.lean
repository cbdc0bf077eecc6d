import Mathlib.Data.List.Chain
import Mathlib.Data.List.Nodup
import Mathlib.Logic.Relation

/-!
# Call paths

A recursive procedure handles each node in two phases: first it calls itself for the nodes that
the node *mentions*, then for those that it *needs*. Its call path is a list of the nodes that are
being handled, the newest first. When the newest node needs one that is on the path, this should
be a cycle of needs. It is if no node is needed by another that its mentions lead to (`Apart`):
then every node on the path since is in its second phase (`needs_of_mem`).
-/

namespace Mirage

open Relation

variable {α : Type*} {Mentions Needs : α → α → Prop} {second : α → Prop}

/-- A path along `R` that does not come to `w`. -/
def Avoiding (R : α → α → Prop) (w : α) : α → α → Prop := ReflTransGen fun a b => R a b ∧ b ≠ w

/-- `callee` is handled for `caller`, by the phase that this is in. -/
def CalledBy (Mentions Needs : α → α → Prop) (second : α → Prop) (callee caller : α) : Prop :=
  (second caller → Needs caller callee) ∧ (¬ second caller → Mentions caller callee)

/-- No node is needed by one that its mentions lead to without coming back to it. -/
def Apart (Mentions Needs : α → α → Prop) : Prop :=
  ∀ w x y, x ≠ w → Mentions w x → Avoiding (fun a b => Mentions a b ∨ Needs a b) w x y →
    ¬ Needs y w

theorem CalledBy.uses {callee caller : α} (h : CalledBy Mentions Needs second callee caller) :
    Mentions caller callee ∨ Needs caller callee := by
  by_cases hsecond : second caller
  · exact .inr (h.1 hsecond)
  · exact .inl (h.2 hsecond)

/-- The oldest node of a path leads to the newest one, by what its calls are. -/
theorem reaches_of_isChain {R : α → α → Prop} {k z : α} {rest path : List α}
    (hchain : List.IsChain (CalledBy Mentions Needs second) (k :: rest))
    (hpath : k :: rest = path ++ [z])
    (hR : ∀ callee ∈ path, ∀ caller ∈ rest, CalledBy Mentions Needs second callee caller →
      R caller callee) : ReflTransGen R z k := by
  induction rest generalizing k path with
  | nil =>
    rcases path with _ | ⟨a, path⟩
    · obtain ⟨rfl, -⟩ := List.cons.inj hpath
      exact .refl
    · exact absurd (List.cons.inj hpath).2 (by simp)
  | cons b rest ih =>
    obtain ⟨hcall, hrest⟩ := List.isChain_cons_cons.mp hchain
    rcases path with _ | ⟨a, path⟩
    · exact absurd (List.cons.inj hpath).2 (by simp)
    · obtain ⟨rfl, htail⟩ := List.cons.inj ((List.cons_append ..).symm.trans hpath.symm)
      refine ReflTransGen.tail (ih hrest htail.symm fun callee hcallee caller hcaller =>
        hR callee (List.mem_cons_of_mem _ hcallee) caller (List.mem_cons_of_mem _ hcaller)) ?_
      exact hR a List.mem_cons_self b List.mem_cons_self hcall

/-- The newest node does not lead to one that needs a node of the path in its first phase. -/
theorem Apart.not_needs (hapart : Apart Mentions Needs) {w k y : α} {newer older : List α}
    (hchain : List.IsChain (CalledBy Mentions Needs second) (k :: newer ++ w :: older))
    (hnodup : (k :: newer ++ w :: older).Nodup) (hw : ¬ second w)
    (h : Avoiding (fun a b => Mentions a b ∨ Needs a b) w k y) : ¬ Needs y w := by
  have hne : ∀ b ∈ k :: newer, b ≠ w := fun b hb heq =>
    List.disjoint_of_nodup_append hnodup hb (heq ▸ List.mem_cons_self)
  obtain ⟨path, b, hpath⟩ := (List.eq_nil_or_concat' (k :: newer)).resolve_left (by simp)
  have hcall : CalledBy Mentions Needs second b w := by
    rw [hpath, List.append_assoc] at hchain
    exact (List.isChain_append_cons_cons.mp hchain).2.1
  have hb : b ∈ k :: newer := hpath ▸ List.mem_append_right _ List.mem_cons_self
  have hbk : Avoiding (fun a b => Mentions a b ∨ Needs a b) w b k := by
    refine reaches_of_isChain (List.IsChain.left_of_append hchain) hpath ?_
    intro callee hcallee caller hcaller hcall
    exact ⟨hcall.uses, hne callee (hpath ▸ List.mem_append_left _ hcallee)⟩
  exact hapart w b y (hne b hb) (hcall.2 hw) (hbk.trans h)

/-- A node of the path that the newest one needs is in its second phase. -/
theorem Apart.second_of_needs (hapart : Apart Mentions Needs) {k c : α} {rest : List α}
    (hchain : List.IsChain (CalledBy Mentions Needs second) (k :: rest))
    (hnodup : (k :: rest).Nodup) (hk : second k) (hc : c ∈ k :: rest) (hneeds : Needs k c) :
    second c := by
  by_contra hfirst
  rcases List.mem_cons.mp hc with rfl | hc
  · exact hfirst hk
  · obtain ⟨newer, older, rfl⟩ := List.append_of_mem hc
    exact hapart.not_needs hchain hnodup hfirst .refl hneeds

/-- So is every node since. -/
theorem Apart.second_of_mem (hapart : Apart Mentions Needs) {k c : α} {newer older : List α}
    (hchain : List.IsChain (CalledBy Mentions Needs second) (k :: newer ++ c :: older))
    (hnodup : (k :: newer ++ c :: older).Nodup) (hc : second c) (hneeds : Needs k c)
    (later : List α) {since : List α} (hsplit : k :: newer = k :: later ++ since) :
    ∀ b ∈ since, second b := by
  induction since generalizing later with
  | nil => exact fun b hb => absurd hb List.not_mem_nil
  | cons r since ih =>
    have hsince := ih (later ++ [r]) (by simpa using hsplit)
    refine List.forall_mem_cons.mpr ⟨?_, hsince⟩
    -- The node before `r` needs it, and `r` leads to this node through `k` and `c`.
    by_contra hfirst
    have hlist : k :: newer ++ c :: older = k :: later ++ r :: (since ++ c :: older) := by
      rw [hsplit]
      simp
    have hcr : c ≠ r := by
      rintro rfl
      rw [hlist] at hnodup
      have hmem : c ∈ since ++ c :: older := List.mem_append_right _ List.mem_cons_self
      exact (List.nodup_cons.mp hnodup.of_append_right).1 hmem
    rw [hlist] at hchain hnodup
    have hkc : Avoiding (fun a b => Mentions a b ∨ Needs a b) r k c := .single ⟨.inr hneeds, hcr⟩
    rcases since with _ | ⟨y, since⟩
    · have hcall : CalledBy Mentions Needs second r c :=
        (List.isChain_append_cons_cons.mp hchain).2.1
      exact hapart.not_needs hchain hnodup hfirst hkc (hcall.1 hc)
    · have hcall : CalledBy Mentions Needs second r y :=
        (List.isChain_append_cons_cons.mp hchain).2.1
      refine hapart.not_needs hchain hnodup hfirst (hkc.trans ?_)
        (hcall.1 (hsince y List.mem_cons_self))
      have hpath : List.IsChain (CalledBy Mentions Needs second) (y :: (since ++ [c])) := by
        have hrest : List.IsChain (CalledBy Mentions Needs second) (y :: (since ++ c :: older)) :=
          (List.isChain_append_cons_cons.mp hchain).2.2
        exact (List.isChain_cons_split.mp hrest).1
      refine reaches_of_isChain hpath (List.cons_append ..).symm ?_
      · intro callee hcallee caller hcaller hcall
        refine ⟨hcall.uses, ?_⟩
        rintro rfl
        have hmem : callee ∈ (y :: since) ++ c :: older := List.mem_append_left _ hcallee
        exact (List.nodup_cons.mp hnodup.of_append_right).1 hmem

/-- A node of the path that the newest one needs leads to it by needs. -/
theorem Apart.needs_of_mem (hapart : Apart Mentions Needs) {k c : α} {rest : List α}
    (hchain : List.IsChain (CalledBy Mentions Needs second) (k :: rest))
    (hnodup : (k :: rest).Nodup) (hk : second k) (hc : c ∈ k :: rest) (hneeds : Needs k c) :
    ReflTransGen Needs c k := by
  have hsecond := hapart.second_of_needs hchain hnodup hk hc hneeds
  rcases List.mem_cons.mp hc with rfl | hc
  · exact .refl
  · obtain ⟨newer, older, rfl⟩ := List.append_of_mem hc
    have hall := hapart.second_of_mem hchain hnodup hsecond hneeds [] rfl
    have hpath : List.IsChain (CalledBy Mentions Needs second) (k :: (newer ++ [c])) :=
      (List.isChain_cons_split.mp hchain).1
    have hsplit : k :: (newer ++ [c]) = (k :: newer) ++ [c] := rfl
    refine reaches_of_isChain hpath hsplit fun callee _ caller hcaller hcall => hcall.1 ?_
    rcases List.mem_append.mp hcaller with hcaller | hcaller
    · exact hall caller hcaller
    · rwa [List.mem_singleton.mp hcaller]

end Mirage
