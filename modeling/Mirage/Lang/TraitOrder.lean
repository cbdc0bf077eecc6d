import Mirage.Lang.Traits
import Mirage.Lib.CallPath

/-!
# Traits in any order

`layoutTrait` reads the methods and components of the traits that a trait composes. They are
complete if these traits are laid out, but a trait that is still resolving its signatures has none
yet. The layouts are right in every order if this can not happen (`layoutAll_flattened`): no trait
is composed by another that its own signatures lead to.
-/

namespace Mirage.Lang.Traits

open Relation

variable {n : Nat} {decls : Fin n → TraitDecl n}

/-! ## Merging -/

@[simp] theorem addMethods_nil (methods : List (TraitMethodInfo n)) :
    addMethods methods [] = methods := rfl

theorem addMethods_cons (methods : List (TraitMethodInfo n)) (m : TraitMethodInfo n)
    (added : List (TraitMethodInfo n)) :
    addMethods methods (m :: added) =
      addMethods (if m.name ∈ methods.map (·.name) then methods else methods ++ [m]) added := rfl

/-- Names that are there stay, and those that are added come. -/
theorem name_mem_addMethods {methods added : List (TraitMethodInfo n)} {name : String}
    (h : name ∈ methods.map (·.name) ∨ name ∈ added.map (·.name)) :
    name ∈ (addMethods methods added).map (·.name) := by
  induction added generalizing methods with
  | nil => exact h.resolve_right List.not_mem_nil
  | cons m added ih =>
    rw [addMethods_cons]
    refine ih ?_
    split_ifs with hname
    · rcases h with h | h
      · exact .inl h
      · rcases List.mem_cons.mp h with rfl | h
        · exact .inl hname
        · exact .inr h
    · rw [List.map_append]
      rcases h with h | h
      · exact .inl (List.mem_append_left _ h)
      · rcases List.mem_cons.mp h with rfl | h
        · exact .inl (List.mem_append_right _ List.mem_cons_self)
        · exact .inr h

theorem addMethods_of_mem {methods added : List (TraitMethodInfo n)}
    (h : ∀ m ∈ added, m.name ∈ methods.map (·.name)) : addMethods methods added = methods := by
  induction added with
  | nil => rfl
  | cons m added ih =>
    rw [addMethods_cons, if_pos (h m List.mem_cons_self)]
    exact ih fun m' hm' => h m' (List.mem_cons_of_mem _ hm')

/-- A trait that was merged has no method left to add. -/
theorem name_mem_foldl_addMethods {α : Type} {f : α → List (TraitMethodInfo n)} {cs : List α}
    {methods : List (TraitMethodInfo n)} {name : String}
    (h : name ∈ methods.map (·.name) ∨ ∃ c ∈ cs, name ∈ (f c).map (·.name)) :
    name ∈ (cs.foldl (fun methods c => addMethods methods (f c)) methods).map (·.name) := by
  induction cs generalizing methods with
  | nil => exact h.resolve_right fun ⟨c, hc, _⟩ => List.not_mem_nil hc
  | cons c cs ih =>
    refine ih ?_
    rcases h with h | ⟨c', hc', h⟩
    · exact .inl (name_mem_addMethods (.inl h))
    · rcases List.mem_cons.mp hc' with rfl | hc'
      · exact .inl (name_mem_addMethods (.inr h))
      · exact .inr ⟨c', hc', h⟩

theorem mergeMethod_spec (trait named : String) (acc : Layout n × List Diagnostic)
    (m : TraitMethodInfo n) :
    (mergeMethod trait named acc m).1.methods =
        (if m.name ∈ acc.1.methods.map (·.name) then acc.1.methods else acc.1.methods ++ [m]) ∧
      ∀ chain, .circular chain ∈ (mergeMethod trait named acc m).2 → .circular chain ∈ acc.2 := by
  rw [mergeMethod]
  split
  · rename_i hfind
    have hnew : m.name ∉ acc.1.methods.map (·.name) := by
      intro hmem
      obtain ⟨m', hm', hname⟩ := List.mem_map.mp hmem
      exact absurd (decide_eq_true hname) (List.find?_eq_none.mp hfind m' hm')
    rw [if_neg hnew]
    exact ⟨rfl, fun _ h => h⟩
  · rename_i existing hfind
    have hname : existing.name = m.name := by simpa using List.find?_some hfind
    have hmem : m.name ∈ acc.1.methods.map (·.name) :=
      hname ▸ List.mem_map_of_mem (List.mem_of_find?_eq_some hfind)
    rw [if_pos hmem]
    split_ifs
    · refine ⟨rfl, fun chain h => ?_⟩
      rcases List.mem_append.mp h with h | h
      · exact h
      · cases List.mem_singleton.mp h
    · exact ⟨rfl, fun _ h => h⟩

/-- Merging adds methods and reports conflicts. -/
theorem foldl_mergeMethod (trait named : String) (ms : List (TraitMethodInfo n))
    (acc : Layout n × List Diagnostic) :
    (ms.foldl (mergeMethod trait named) acc).1.methods = addMethods acc.1.methods ms ∧
      ∀ chain, .circular chain ∈ (ms.foldl (mergeMethod trait named) acc).2 →
        .circular chain ∈ acc.2 := by
  induction ms generalizing acc with
  | nil => exact ⟨rfl, fun _ h => h⟩
  | cons m ms ih =>
    obtain ⟨hmethods, hcircular⟩ := ih (mergeMethod trait named acc m)
    obtain ⟨hstep, hreported⟩ := mergeMethod_spec trait named acc m
    rw [List.foldl_cons, addMethods_cons, hmethods, hstep]
    exact ⟨rfl, fun chain h => hreported chain (hcircular chain h)⟩

theorem indices_append (refs refs' : List (ComposedTraitRef n)) :
    indices (refs ++ refs') = indices refs ++ indices refs' := List.map_append

/-- Components are added once. -/
theorem foldl_addComponent (added components : List (ComposedTraitRef n))
    (hnodup : (indices components).Nodup) :
    (indices (added.foldl addComponent components)).Nodup ∧
      ∀ j, j ∈ indices (added.foldl addComponent components) ↔
        j ∈ indices components ∨ j ∈ indices added := by
  induction added generalizing components with
  | nil => exact ⟨hnodup, fun j => (or_iff_left List.not_mem_nil).symm⟩
  | cons c added ih =>
    have hstep : (indices (addComponent components c)).Nodup ∧
        ∀ j, j ∈ indices (addComponent components c) ↔
          j ∈ indices components ∨ j = c.traitIndex := by
      rw [addComponent]
      split_ifs with hmem
      · refine ⟨hnodup, fun j => ⟨.inl, ?_⟩⟩
        rintro (h | rfl)
        · exact h
        · exact hmem
      · rw [indices_append]
        refine ⟨List.nodup_append'.mpr ⟨hnodup, List.nodup_singleton _, ?_⟩, fun j => ?_⟩
        · exact List.disjoint_singleton.mpr hmem
        · rw [List.mem_append]
          exact or_congr Iff.rfl List.mem_singleton
    obtain ⟨hnodup', hmem'⟩ := ih _ hstep.1
    refine ⟨hnodup', fun j => ?_⟩
    rw [List.foldl_cons, hmem', hstep.2, or_assoc]
    exact or_congr Iff.rfl List.mem_cons.symm

/-! ## What the states keep -/

def Done (traits : Fin n → TraitInfo n) (k : Fin n) : Prop := (traits k).layoutDone = true

/-- A trait that is laid out as it should be, by traits that are. -/
structure RightAt (decls : Fin n → TraitDecl n) (traits : Fin n → TraitInfo n) (k : Fin n) :
    Prop where
  composed : ∀ c, Composes decls k c → Done traits c
  methods : (traits k).methods = flattened decls traits k
  nodup : (indices (traits k).componentTraits).Nodup
  components : ∀ j ∈ indices (traits k).componentTraits,
    Done traits j ∧ TransGen (Composes decls) k j
  includes : ∀ c, Composes decls k c → c ∈ indices (traits k).componentTraits ∧
    ∀ j ∈ indices (traits c).componentTraits, j ∈ indices (traits k).componentTraits
  irrefl : k ∉ indices (traits k).componentTraits

/-- What holds whenever a trait is asked for. -/
structure Good (decls : Fin n → TraitDecl n) (st : State n) : Prop where
  nodup : st.resolving.Nodup
  stack : ∀ r ∈ st.compositionStack, r ∈ st.resolving
  undone : ∀ r ∈ st.resolving, ¬ Done st.traits r
  genuine : st.circularReported → ¬ Acyclic decls
  right : ¬ st.circularReported → ∀ k, Done st.traits k → RightAt decls st.traits k

/-- What is done is kept. -/
structure Extends (st st' : State n) : Prop where
  resolving : st'.resolving = st.resolving
  stack : st'.compositionStack = st.compositionStack
  kept : ∀ j, Done st.traits j → st'.traits j = st.traits j
  reported : st.circularReported → st'.circularReported

theorem Extends.refl (st : State n) : Extends st st := ⟨rfl, rfl, fun _ _ => rfl, fun h => h⟩

theorem done_of_kept {traits traits' : Fin n → TraitInfo n} {j : Fin n}
    (h : traits' j = traits j) (hj : Done traits j) : Done traits' j := by
  rw [Done, h]
  exact hj

theorem Extends.trans {st st' st'' : State n} (h : Extends st st') (h' : Extends st' st'') :
    Extends st st'' where
  resolving := h'.resolving.trans h.resolving
  stack := h'.stack.trans h.stack
  kept j hj := (h'.kept j (done_of_kept (h.kept j hj) hj)).trans (h.kept j hj)
  reported hreported := h'.reported (h.reported hreported)

theorem foldl_addMethods_congr {traits traits' : Fin n → TraitInfo n}
    {cs : List (String × Fin n)} {methods : List (TraitMethodInfo n)}
    (h : ∀ c ∈ cs.map Prod.snd, traits' c = traits c) :
    cs.foldl (fun methods c => addMethods methods (traits' c.2).methods) methods =
      cs.foldl (fun methods c => addMethods methods (traits c.2).methods) methods := by
  induction cs generalizing methods with
  | nil => rfl
  | cons c cs ih =>
    rw [List.foldl_cons, List.foldl_cons, h c.2 List.mem_cons_self]
    exact ih fun c' hc' => h c' (List.mem_cons_of_mem _ hc')

theorem RightAt.mono {traits traits' : Fin n → TraitInfo n} {k : Fin n}
    (hkept : ∀ j, Done traits j → traits' j = traits j) (hk : Done traits k)
    (h : RightAt decls traits k) : RightAt decls traits' k := by
  have hcomposed {c : Fin n} (hc : Composes decls k c) : traits' c = traits c :=
    hkept c (h.composed c hc)
  constructor
  · exact fun c hc => done_of_kept (hcomposed hc) (h.composed c hc)
  · rw [hkept k hk, h.methods]
    exact (foldl_addMethods_congr fun c hc => hcomposed hc).symm
  · rw [hkept k hk]
    exact h.nodup
  · rw [hkept k hk]
    intro j hj
    obtain ⟨hdone, hpath⟩ := h.components j hj
    exact ⟨done_of_kept (hkept j hdone) hdone, hpath⟩
  · intro c hc
    rw [hkept k hk, hcomposed hc]
    exact h.includes c hc
  · rw [hkept k hk]
    exact h.irrefl

/-- The traits that are being laid out call each other, down to one that is asked for. -/
def Path (decls : Fin n → TraitDecl n) (st : State n) (k : Fin n) : Prop :=
  List.IsChain (CalledBy (Mentions decls) (Composes decls) (· ∈ st.compositionStack))
    (k :: st.resolving)

theorem Extends.path {st st' : State n} {k : Fin n} (h : Extends st st') (hpath : Path decls st k) :
    Path decls st' k := by
  rw [Path, h.resolving, h.stack]
  exact hpath

/-- `resolve` lays out any trait that is asked for while the traits `resolving` are. -/
def Resolves (decls : Fin n → TraitDecl n) (resolve : Fin n → State n → Option (State n))
    (resolving : List (Fin n)) : Prop :=
  ∀ k st, Good decls st → st.resolving = resolving → Path decls st k →
    ∃ st', resolve k st = some st' ∧ Good decls st' ∧ Extends st st' ∧
      (Done st'.traits k ∨ k ∈ resolving)

theorem resolveMentions_spec {resolve : Fin n → State n → Option (State n)}
    {resolving : List (Fin n)} (hresolve : Resolves decls resolve resolving)
    (targets : List (Fin n)) {st : State n} (hgood : Good decls st)
    (hresolving : st.resolving = resolving) (hpath : ∀ k ∈ targets, Path decls st k) :
    ∃ st', resolveMentions resolve targets st = some st' ∧ Good decls st' ∧ Extends st st' ∧
      ∀ k ∈ targets, Done st'.traits k ∨ k ∈ resolving := by
  induction targets generalizing st with
  | nil => exact ⟨st, rfl, hgood, .refl st, fun _ hk => absurd hk List.not_mem_nil⟩
  | cons target targets ih =>
    obtain ⟨st₁, hst₁, hgood₁, hext₁, hdone⟩ :=
      hresolve target st hgood hresolving (hpath target List.mem_cons_self)
    obtain ⟨st₂, hst₂, hgood₂, hext₂, hrest⟩ := ih hgood₁ (hext₁.resolving.trans hresolving)
      fun k hk => hext₁.path (hpath k (List.mem_cons_of_mem _ hk))
    refine ⟨st₂, ?_, hgood₂, hext₁.trans hext₂, List.forall_mem_cons.mpr ⟨?_, hrest⟩⟩
    · rw [resolveMentions, hst₁]
      exact hst₂
    · exact hdone.imp_left fun h => done_of_kept (hext₂.kept target h) h

/-! ## Composition -/

/-- What is gathered for `slot` when the entries `seen` are done. -/
structure Merged (decls : Fin n → TraitDecl n) (slot : Fin n) (seen : List (String × Fin n))
    (layout : Layout n) (traits : Fin n → TraitInfo n) : Prop where
  done : ∀ c ∈ seen.map Prod.snd, Done traits c
  direct : ∀ c ∈ indices layout.composedTraits, c ∈ seen.map Prod.snd
  methods : layout.methods =
    seen.foldl (fun methods c => addMethods methods (traits c.2).methods) (decls slot).methods
  nodup : (indices layout.componentTraits).Nodup
  components : ∀ j ∈ indices layout.componentTraits,
    Done traits j ∧ TransGen (Composes decls) slot j
  includes : ∀ c ∈ seen.map Prod.snd, c ∈ indices layout.componentTraits ∧
    ∀ j ∈ indices (traits c).componentTraits, j ∈ indices layout.componentTraits

variable {slot : Fin n} {seen : List (String × Fin n)} {layout : Layout n}

theorem Merged.mono {traits traits' : Fin n → TraitInfo n}
    (hkept : ∀ j, Done traits j → traits' j = traits j)
    (h : Merged decls slot seen layout traits) : Merged decls slot seen layout traits' where
  done c hc := done_of_kept (hkept c (h.done c hc)) (h.done c hc)
  direct := h.direct
  methods := h.methods.trans (foldl_addMethods_congr fun c hc => hkept c (h.done c hc)).symm
  nodup := h.nodup
  components j hj := by
    obtain ⟨hdone, hpath⟩ := h.components j hj
    exact ⟨done_of_kept (hkept j hdone) hdone, hpath⟩
  includes c hc := by
    rw [hkept c (h.done c hc)]
    exact h.includes c hc

/-- An entry for a trait that is there adds nothing. -/
theorem Merged.duplicate {traits : Fin n → TraitInfo n} (h : Merged decls slot seen layout traits)
    {named : String} {target : Fin n} (htarget : target ∈ seen.map Prod.snd) :
    Merged decls slot (seen ++ [(named, target)]) layout traits := by
  have hmem : ∀ c ∈ (seen ++ [(named, target)]).map Prod.snd, c ∈ seen.map Prod.snd := by
    intro c hc
    rw [List.map_append] at hc
    rcases List.mem_append.mp hc with hc | hc
    · exact hc
    · rwa [List.mem_singleton.mp hc]
  refine ⟨fun c hc => h.done c (hmem c hc), fun c hc => ?_, ?_, h.nodup, h.components,
    fun c hc => h.includes c (hmem c hc)⟩
  · rw [List.map_append]
    exact List.mem_append_left _ (h.direct c hc)
  · obtain ⟨c, hc, rfl⟩ := List.mem_map.mp htarget
    rw [List.foldl_append, List.foldl_cons, List.foldl_nil, ← h.methods]
    refine (addMethods_of_mem fun m hm => ?_).symm
    rw [h.methods]
    exact name_mem_foldl_addMethods (.inr ⟨c, hc, List.mem_map_of_mem hm⟩)

/-- An entry for a trait that is laid out. -/
theorem Merged.merge {traits : Fin n → TraitInfo n} (h : Merged decls slot seen layout traits)
    {named : String} (ref : ComposedTraitRef n) (hcomposes : Composes decls slot ref.traitIndex)
    (hdone : Done traits ref.traitIndex) (hright : RightAt decls traits ref.traitIndex)
    {methods : List (TraitMethodInfo n)} {contributor : List (String × String)}
    (hmethods : methods = addMethods layout.methods (traits ref.traitIndex).methods) :
    Merged decls slot (seen ++ [(named, ref.traitIndex)])
      ⟨methods, contributor, layout.composedTraits ++ [ref],
        ((traits ref.traitIndex).componentTraits ++ [ref]).foldl addComponent
          layout.componentTraits⟩ traits := by
  obtain ⟨hnodup, hmem⟩ := foldl_addComponent ((traits ref.traitIndex).componentTraits ++ [ref])
    layout.componentTraits h.nodup
  have hmem' (j : Fin n) : j ∈ indices (((traits ref.traitIndex).componentTraits ++ [ref]).foldl
      addComponent layout.componentTraits) ↔ j ∈ indices layout.componentTraits ∨
        j ∈ indices (traits ref.traitIndex).componentTraits ∨ j = ref.traitIndex := by
    rw [hmem, indices_append, List.mem_append]
    exact or_congr Iff.rfl (or_congr Iff.rfl List.mem_singleton)
  constructor
  · rw [List.map_append]
    intro c hc
    rcases List.mem_append.mp hc with hc | hc
    · exact h.done c hc
    · rwa [List.mem_singleton.mp hc]
  · rw [List.map_append, indices_append]
    intro c hc
    rcases List.mem_append.mp hc with hc | hc
    · exact List.mem_append_left _ (h.direct c hc)
    · exact List.mem_append_right _ hc
  · refine hmethods.trans ?_
    rw [List.foldl_append, ← h.methods]
    rfl
  · exact hnodup
  · intro j hj
    rcases (hmem' j).mp hj with hj | hj | rfl
    · exact h.components j hj
    · obtain ⟨hj, hpath⟩ := hright.components j hj
      exact ⟨hj, .head hcomposes hpath⟩
    · exact ⟨hdone, .single hcomposes⟩
  · rw [List.map_append]
    intro c hc
    rcases List.mem_append.mp hc with hc | hc
    · obtain ⟨hself, hincludes⟩ := h.includes c hc
      exact ⟨(hmem' c).mpr (.inl hself), fun j hj => (hmem' j).mpr (.inl (hincludes j hj))⟩
    · rw [List.mem_singleton.mp hc]
      exact ⟨(hmem' _).mpr (.inr (.inr rfl)), fun j hj => (hmem' j).mpr (.inr (.inl hj))⟩

theorem circularReported_report {st : State n} {ds : List Diagnostic} :
    (st.report ds).circularReported ↔
      st.circularReported ∨ ∃ chain, Diagnostic.circular chain ∈ ds := by
  constructor
  · rintro ⟨chain, h⟩
    exact (List.mem_append.mp h).imp (⟨chain, ·⟩) (⟨chain, ·⟩)
  · rintro (⟨chain, h⟩ | ⟨chain, h⟩)
    · exact ⟨chain, List.mem_append_left _ h⟩
    · exact ⟨chain, List.mem_append_right _ h⟩

theorem Extends.report (st : State n) (ds : List Diagnostic) : Extends st (st.report ds) :=
  ⟨rfl, rfl, fun _ _ => rfl, fun h => circularReported_report.mpr (.inl h)⟩

/-- What is reported has to be right, and only circular compositions matter. -/
theorem Good.report {st : State n} (h : Good decls st) {ds : List Diagnostic}
    (hds : (∃ chain, Diagnostic.circular chain ∈ ds) → ¬ Acyclic decls) :
    Good decls (st.report ds) where
  nodup := h.nodup
  stack := h.stack
  undone := h.undone
  genuine hreported := (circularReported_report.mp hreported).elim h.genuine hds
  right hreported := h.right fun h => hreported (circularReported_report.mpr (.inl h))

variable {st : State n} {named : String} {target : Fin n} {rest : List (Fin n)}

theorem composeTrait_spec (named : String)
    (hapart : Apart (Mentions decls) (Composes decls)) (hgood : Good decls st)
    (hresolving : st.resolving = slot :: rest)
    (hchain : List.IsChain (CalledBy (Mentions decls) (Composes decls) (· ∈ st.compositionStack))
      (slot :: rest))
    (hslot : slot ∈ st.compositionStack) (hcomposes : Composes decls slot target)
    (htarget : Done st.traits target ∨ target ∈ st.resolving)
    (hmerged : ¬ st.circularReported → Merged decls slot seen layout st.traits) :
    Good decls (composeTrait (decls slot) named target layout st).2 ∧
      Extends st (composeTrait (decls slot) named target layout st).2 ∧
      (¬ (composeTrait (decls slot) named target layout st).2.circularReported →
        Merged decls slot (seen ++ [(named, target)])
          (composeTrait (decls slot) named target layout st).1
          (composeTrait (decls slot) named target layout st).2.traits) := by
  have hnodup : (slot :: rest).Nodup := hresolving ▸ hgood.nodup
  rw [composeTrait]
  split_ifs with hstack hdirect
  · -- The target leads back to the trait by compositions only.
    have hmem : target ∈ slot :: rest := hresolving ▸ hgood.stack target hstack
    have hback := hapart.needs_of_mem hchain hnodup hslot hmem hcomposes
    refine ⟨hgood.report fun _ hacyclic => hacyclic target (.tail' hback hcomposes), .report _ _,
      fun hreported => ?_⟩
    exact absurd (circularReported_report.mpr (.inr ⟨_, List.mem_cons_self⟩)) hreported
  · have hnone : ¬ ∃ chain, Diagnostic.circular chain ∈ [.duplicate named (decls slot).name] := by
      rintro ⟨chain, h⟩
      cases List.mem_singleton.mp h
    refine ⟨hgood.report fun h => absurd h hnone, .report _ _, fun hreported => ?_⟩
    have hmerged := hmerged fun h => hreported (circularReported_report.mpr (.inl h))
    exact hmerged.duplicate (hmerged.direct target hdirect)
  · have hdone : Done st.traits target := by
      refine htarget.resolve_right fun hmem => hstack ?_
      exact hapart.second_of_needs hchain hnodup hslot (hresolving ▸ hmem) hcomposes
    obtain ⟨hmethods, hcircular⟩ := foldl_mergeMethod (decls slot).name named
      (st.traits target).methods (layout, [])
    refine ⟨hgood.report fun ⟨chain, h⟩ => absurd (hcircular chain h) List.not_mem_nil,
      .report _ _, fun hreported => ?_⟩
    have hunreported : ¬ st.circularReported :=
      fun h => hreported (circularReported_report.mpr (.inl h))
    exact (hmerged hunreported).merge ⟨(st.traits target).modulePath, named, target⟩
      hcomposes hdone (hgood.right hunreported target hdone) hmethods

/-- All entries of the list of composed traits. -/
theorem composeTraits_spec (hapart : Apart (Mentions decls) (Composes decls))
    {resolve : Fin n → State n → Option (State n)}
    (hresolve : Resolves decls resolve (slot :: rest)) {entries : List (String × Fin n)}
    (hentries : ∀ c ∈ entries.map Prod.snd, Composes decls slot c) (hgood : Good decls st)
    (hresolving : st.resolving = slot :: rest)
    (hchain : List.IsChain (CalledBy (Mentions decls) (Composes decls) (· ∈ st.compositionStack))
      (slot :: rest))
    (hslot : slot ∈ st.compositionStack)
    (hmerged : ¬ st.circularReported → Merged decls slot seen layout st.traits) :
    ∃ layout' st', composeTraits resolve (decls slot) entries layout st = some (layout', st') ∧
      Good decls st' ∧ Extends st st' ∧
      (¬ st'.circularReported → Merged decls slot (seen ++ entries) layout' st'.traits) := by
  induction entries generalizing st layout seen with
  | nil =>
    refine ⟨layout, st, rfl, hgood, .refl st, ?_⟩
    rwa [List.append_nil]
  | cons entry entries ih =>
    obtain ⟨named, target⟩ := entry
    have hcomposes : Composes decls slot target := hentries target List.mem_cons_self
    have hpath : Path decls st target := by
      rw [Path, hresolving]
      exact List.isChain_cons_cons.mpr ⟨⟨fun _ => hcomposes, fun h => absurd hslot h⟩, hchain⟩
    obtain ⟨st₁, hst₁, hgood₁, hext₁, hdone⟩ := hresolve target st hgood hresolving hpath
    rw [← hresolving, ← hext₁.resolving] at hdone
    rw [← hext₁.stack] at hchain hslot
    obtain ⟨hgood₂, hext₂, hmerged₂⟩ := composeTrait_spec named hapart hgood₁
      (hext₁.resolving.trans hresolving) hchain hslot hcomposes hdone
      fun h => (hmerged fun h' => h (hext₁.reported h')).mono hext₁.kept
    rw [← hext₂.stack] at hchain hslot
    obtain ⟨layout', st', hst', hgood', hext', hmerged'⟩ := ih
      (fun c hc => hentries c (List.mem_cons_of_mem _ hc)) hgood₂
      ((hext₁.trans hext₂).resolving.trans hresolving) hchain hslot hmerged₂
    refine ⟨layout', st', ?_, hgood', (hext₁.trans hext₂).trans hext', ?_⟩
    · rw [composeTraits, hst₁]
      exact hst'
    · rwa [List.append_cons]

/-! ## Layout -/

/-- A trait that starts to compose is called by none, so all calls stay what they are. -/
theorem isChain_push {stack : List (Fin n)} (hslot : slot ∉ rest)
    (h : List.IsChain (CalledBy (Mentions decls) (Composes decls) (· ∈ stack)) (slot :: rest)) :
    List.IsChain (CalledBy (Mentions decls) (Composes decls) (· ∈ stack ++ [slot]))
      (slot :: rest) := by
  refine List.IsChain.imp_of_mem_tail_imp (fun callee caller _ hcaller hcall => ?_) h
  have hstack : caller ∈ stack ++ [slot] ↔ caller ∈ stack := by
    refine ⟨fun hmem => ?_, List.mem_append_left _⟩
    rcases List.mem_append.mp hmem with hmem | hmem
    · exact hmem
    · exact absurd (List.mem_singleton.mp hmem ▸ hcaller) hslot
  exact ⟨fun hmem => hcall.1 (hstack.mp hmem), fun hmem => hcall.2 fun h => hmem (hstack.mpr h)⟩

/-- What is merged from all entries is the layout. -/
theorem Merged.rightAt {traits : Fin n → TraitInfo n}
    (h : Merged decls slot (decls slot).composedTraits layout traits) (hslot : ¬ Done traits slot)
    {info : TraitInfo n} (hmethods : info.methods = layout.methods)
    (hcomponents : info.componentTraits = layout.componentTraits) :
    RightAt decls (Function.update traits slot info) slot := by
  have hne {j : Fin n} (hj : Done traits j) : Function.update traits slot info j = traits j := by
    refine Function.update_of_ne ?_ _ _
    rintro rfl
    exact hslot hj
  constructor
  · exact fun c hc => done_of_kept (hne (h.done c hc)) (h.done c hc)
  · rw [Function.update_self, hmethods, h.methods]
    exact (foldl_addMethods_congr fun c hc => hne (h.done c hc)).symm
  · rw [Function.update_self, hcomponents]
    exact h.nodup
  · rw [Function.update_self, hcomponents]
    intro j hj
    obtain ⟨hdone, hpath⟩ := h.components j hj
    exact ⟨done_of_kept (hne hdone) hdone, hpath⟩
  · intro c hc
    rw [Function.update_self, hcomponents, hne (h.done c hc)]
    exact h.includes c hc
  · rw [Function.update_self, hcomponents]
    exact fun hmem => hslot (h.components slot hmem).1

/-- A trait is laid out, and no longer resolving. -/
theorem Good.finish (hgood : Good decls st) (hresolving : st.resolving = slot :: rest)
    (hmerged : ¬ st.circularReported →
      Merged decls slot (decls slot).composedTraits layout st.traits)
    {info : TraitInfo n} (hmethods : info.methods = layout.methods)
    (hcomponents : info.componentTraits = layout.componentTraits) {stack : List (Fin n)}
    (hstack : ∀ r ∈ stack, r ∈ rest) :
    Good decls ⟨Function.update st.traits slot info, rest, stack, st.diagnostics⟩ := by
  have hnodup := hgood.nodup
  have hundone := hgood.undone
  rw [hresolving] at hnodup hundone
  obtain ⟨hnotMem, hnodup⟩ := List.nodup_cons.mp hnodup
  have hslot : ¬ Done st.traits slot := hundone slot List.mem_cons_self
  have hne {j : Fin n} (hj : j ≠ slot) : Function.update st.traits slot info j = st.traits j :=
    Function.update_of_ne hj _ _
  refine ⟨hnodup, hstack, fun r hr hdone' => ?_, hgood.genuine, fun hreported k hk => ?_⟩
  · have hrslot : r ≠ slot := fun heq => hnotMem (heq ▸ hr)
    exact hundone r (List.mem_cons_of_mem _ hr) (done_of_kept (hne hrslot).symm hdone')
  · by_cases hkslot : k = slot
    · subst hkslot
      exact (hmerged hreported).rightAt hslot hmethods hcomponents
    · have hk' : Done st.traits k := done_of_kept (hne hkslot).symm hk
      exact (hgood.right hreported k hk').mono (fun j hj => hne fun heq => hslot (heq ▸ hj)) hk'

theorem layoutTrait_eq {resolve : Fin n → State n → Option (State n)} {decl : TraitDecl n}
    {st₁ st₂ : State n}
    (hmentions : resolveMentions resolve (decl.methods.flatMap TraitMethodInfo.mentions) st =
      some st₁)
    (hcomposes : composeTraits resolve decl decl.composedTraits
      ⟨decl.methods, decl.methods.map fun m => (m.name, ""), [], []⟩
      { st₁ with compositionStack := st₁.compositionStack ++ [slot] } = some (layout, st₂)) :
    layoutTrait resolve decl slot st = some
      { st₂ with
        compositionStack := st₂.compositionStack.dropLast
        traits := Function.update st₂.traits slot
          ⟨decl.modulePath, decl.name, layout.methods, layout.composedTraits,
            layout.componentTraits, true⟩ } := by
  simp only [layoutTrait, hmentions, Option.bind_some, hcomposes, Option.map_some]

theorem resolveFinalFull_resolves (hapart : Apart (Mentions decls) (Composes decls)) (fuel : Nat)
    (resolving : List (Fin n)) (hfuel : n < fuel + resolving.length) :
    Resolves decls (resolveFinalFull decls fuel) resolving := by
  induction fuel generalizing resolving with
  | zero =>
    intro k st hgood hresolving
    have hlength := hgood.nodup.length_le_card
    rw [hresolving, Fintype.card_fin] at hlength
    omega
  | succ fuel ih =>
    intro slot st hgood hresolving hpath
    rw [Path, hresolving] at hpath
    rw [resolveFinalFull]
    split_ifs with hdone hmem
    · exact ⟨st, rfl, hgood, .refl st, .inl hdone⟩
    · exact ⟨st, rfl, hgood, .refl st, .inr (hresolving ▸ hmem)⟩
    · have hstack : slot ∉ st.compositionStack := fun h => hmem (hgood.stack slot h)
      have hresolve := ih (slot :: resolving) (by rw [List.length_cons]; omega)
      -- First phase.
      have hmarked : Good decls { st with resolving := slot :: st.resolving } :=
        ⟨List.nodup_cons.mpr ⟨hmem, hgood.nodup⟩,
          fun r hr => List.mem_cons_of_mem _ (hgood.stack r hr),
          List.forall_mem_cons.mpr ⟨hdone, hgood.undone⟩, hgood.genuine, hgood.right⟩
      obtain ⟨st₁, hst₁, hgood₁, hext₁, -⟩ := resolveMentions_spec hresolve
        ((decls slot).methods.flatMap TraitMethodInfo.mentions) hmarked
        (congrArg (slot :: ·) hresolving) fun k hk => by
          rw [Path, hresolving]
          exact List.isChain_cons_cons.mpr ⟨⟨fun h => absurd h hstack, fun _ => hk⟩, hpath⟩
      have hresolving₁ : st₁.resolving = slot :: resolving :=
        hext₁.resolving.trans (congrArg (slot :: ·) hresolving)
      -- Second phase.
      have hpushed : Good decls { st₁ with compositionStack := st₁.compositionStack ++ [slot] } :=
        ⟨hgood₁.nodup, fun r hr => by
          rcases List.mem_append.mp hr with hr | hr
          · exact hgood₁.stack r hr
          · rw [hresolving₁, List.mem_singleton.mp hr]
            exact List.mem_cons_self, hgood₁.undone, hgood₁.genuine, hgood₁.right⟩
      have hchain := isChain_push (hresolving ▸ hmem) hpath
      rw [← hext₁.stack] at hchain
      have hempty : Merged decls slot []
          ⟨(decls slot).methods, (decls slot).methods.map fun m => (m.name, ""), [], []⟩
          st₁.traits :=
        ⟨fun _ h => (nomatch h), fun _ h => (nomatch h), rfl, List.nodup_nil, fun _ h => (nomatch h),
          fun _ h => (nomatch h)⟩
      obtain ⟨layout, st₂, hst₂, hgood₂, hext₂, hmerged⟩ := composeTraits_spec hapart hresolve
        (fun _ hc => hc) hpushed hresolving₁ hchain (List.mem_append_right _ List.mem_cons_self)
        fun _ => hempty
      have hresolving₂ : st₂.resolving = slot :: resolving := hext₂.resolving.trans hresolving₁
      have hstack₂ : st₂.compositionStack.dropLast = st.compositionStack := by
        rw [hext₂.stack, List.dropLast_concat]
        exact hext₁.stack
      refine ⟨⟨Function.update st₂.traits slot ⟨(decls slot).modulePath, (decls slot).name,
        layout.methods, layout.composedTraits, layout.componentTraits, true⟩, resolving,
        st.compositionStack, st₂.diagnostics⟩, ?_, ?_, ?_, .inl ?_⟩
      · simp only [layoutTrait_eq hst₁ hst₂, Option.map_some, hstack₂, hresolving₂,
          List.erase_cons_head]
      · exact hgood₂.finish hresolving₂ hmerged rfl rfl
          fun r hr => hresolving ▸ hgood.stack r hr
      · refine ⟨hresolving.symm, rfl, fun j hj => ?_, fun h => hext₂.reported (hext₁.reported h)⟩
        have hj₁ := hext₁.kept j hj
        have hj₂ := hext₂.kept j (done_of_kept hj₁ hj)
        refine (Function.update_of_ne ?_ _ _).trans (hj₂.trans hj₁)
        rintro rfl
        exact hdone hj
      · rw [Done]
        simp only [Function.update_self]

/-! ## All traits -/

theorem good_initialState (decls : Fin n → TraitDecl n) : Good decls (initialState decls) where
  nodup := List.nodup_nil
  stack _ hr := absurd hr List.not_mem_nil
  undone _ hr := absurd hr List.not_mem_nil
  genuine := fun ⟨_, h⟩ => absurd h List.not_mem_nil
  right _ _ hk := absurd hk Bool.false_ne_true

/-- When all traits are laid out, the components of a trait are all it has by composition. -/
theorem Good.mem_components (h : Good decls st) (hreported : ¬ st.circularReported)
    (hdone : ∀ k, Done st.traits k) {k j : Fin n} :
    j ∈ indices (st.traits k).componentTraits ↔ TransGen (Composes decls) k j := by
  refine ⟨fun hj => ((h.right hreported k (hdone k)).components j hj).2, fun hpath => ?_⟩
  induction hpath using TransGen.head_induction_on with
  | single hcomposes => exact ((h.right hreported _ (hdone _)).includes _ hcomposes).1
  | head hcomposes _ ih => exact ((h.right hreported _ (hdone _)).includes _ hcomposes).2 _ ih

theorem Good.flattened (h : Good decls st) (hdone : ∀ k, Done st.traits k) :
    Flattened decls st := by
  have hcircular : st.circularReported ↔ ¬ Acyclic decls := by
    refine ⟨h.genuine, fun hcyclic => ?_⟩
    by_contra hreported
    refine hcyclic fun k hpath => ?_
    exact (h.right hreported k (hdone k)).irrefl ((h.mem_components hreported hdone).mpr hpath)
  have hunreported (hacyclic : Acyclic decls) : ¬ st.circularReported :=
    fun hreported => hcircular.mp hreported hacyclic
  exact ⟨fun hacyclic k => (h.right (hunreported hacyclic) k (hdone k)).methods,
    fun hacyclic k => (h.right (hunreported hacyclic) k (hdone k)).nodup,
    fun hacyclic k j => h.mem_components (hunreported hacyclic) hdone, hcircular⟩

/-- Two traits compose a third one, and one of them also composes and mentions the other. -/
def diamond : Fin 3 → TraitDecl 3 := fun
  | 0 => ⟨"m", "A", [⟨"f", false, [], []⟩], []⟩
  | 1 => ⟨"m", "B", [⟨"g", false, [], []⟩], [("A", 0)]⟩
  | 2 => ⟨"m", "C", [⟨"h", false, [.trait 1], []⟩], [("A", 0), ("B", 1)]⟩

/-- A trait without own methods composes one that mentions it. -/
def halfRead : Fin 2 → TraitDecl 2 := fun
  | 0 => ⟨"m", "A", [⟨"f", false, [.trait 1], []⟩], []⟩
  | 1 => ⟨"m", "B", [], [("A", 0)]⟩

theorem acyclic_halfRead : Acyclic halfRead := by
  have hedge : ∀ k j, Composes halfRead k j → k = 1 ∧ j = 0 := by decide
  intro k hpath
  obtain ⟨j, hkj, hjk⟩ := TransGen.head'_iff.mp hpath
  obtain ⟨rfl, rfl⟩ := hedge k j hkj
  rcases ReflTransGen.cases_head hjk with heq | ⟨j, h0j, -⟩
  · cases heq
  · cases (hedge 0 j h0j).1

end Mirage.Lang.Traits
