import Mathlib.Data.List.Nodup
import Mirage.Lib.Table
import Mirage.Lang.Vtables

/-!
# Calls reach the right method

The tables of an `impl` are *right* if the words for methods lead to the bodies of that `impl`, and
the words for component traits to the tables that were made for these traits. This is so exactly
if the keys tell apart what has to be told apart (`FamilyDistinct`), and then every call through
every chain of narrowings reaches the body it should (`dispatches_iff`).
-/

namespace Mirage.Lang.Vtables

namespace Generator

/-! ## Methods -/

/-- The function that is declared under a key. -/
def servedBy (g : Generator) (key : String × String × String × String) : Option Function :=
  (g.methodIndex.lookup key).bind (g.functions[·]?)

/-- The keys of methods lead to functions. -/
def Served (g : Generator) : Prop := ∀ entry ∈ g.methodIndex, entry.2 < g.functions.length

theorem declareTraitMethod_served (i : TraitImplInfo) {g : Generator} (h : g.Served)
    (method : String) : (g.declareTraitMethod i method).Served := by
  rw [declareTraitMethod]
  split_ifs
  · exact h
  · intro entry hentry
    rw [List.length_append]
    rcases List.mem_cons.mp hentry with rfl | hentry
    · exact Nat.lt_succ_self _
    · exact Nat.lt_add_right _ (h entry hentry)

/-- A key that is taken keeps its function. -/
theorem servedBy_declareTraitMethod (i : TraitImplInfo) {g : Generator} (h : g.Served)
    (method : String) (key : String × String × String × String) :
    (g.declareTraitMethod i method).servedBy key =
      (g.servedBy key).or (if i.methodKey method = key then some (.traitMethod i method) else none) := by
  have hlt {f : Nat} (hf : g.methodIndex.lookup key = some f) : f < g.functions.length :=
    h _ (mem_of_lookup hf)
  rw [declareTraitMethod, servedBy, servedBy]
  rcases hlookup : g.methodIndex.lookup key with _ | f
  · by_cases hkey : i.methodKey method = key
    · subst hkey
      rw [if_neg (by simp [hlookup]), if_pos rfl, List.lookup_cons_self]
      exact List.getElem?_concat_length
    · rw [if_neg hkey]
      split_ifs
      · rw [hlookup]
        rfl
      · rw [lookup_cons_of_ne (Ne.symm hkey), hlookup]
        rfl
  · have hf := hlt hlookup
    have hsome : g.functions[f]? = some g.functions[f] := List.getElem?_eq_getElem hf
    rw [Option.bind_some, hsome, Option.some_or]
    split_ifs with htaken
    · rw [hlookup]
      exact hsome
    · have hkey : ¬ key = i.methodKey method := by
        rintro rfl
        exact htaken (by rw [hlookup]; rfl)
      rw [lookup_cons_of_ne hkey, hlookup]
      exact (List.getElem?_append_left hf).trans hsome

/-- The function that an `impl` declares under a key. -/
def bodyFor (key : String × String × String × String) (i : TraitImplInfo) : Option Function :=
  if key.2.2.2 ∈ i.methods ∧ i.methodKey key.2.2.2 = key then some (.traitMethod i key.2.2.2)
  else none

theorem foldl_declareTraitMethod (i : TraitImplInfo) (methods : List String) {g : Generator}
    (h : g.Served) (key : String × String × String × String) :
    (methods.foldl (declareTraitMethod i) g).Served ∧
    (methods.foldl (declareTraitMethod i) g).servedBy key = (g.servedBy key).or
      (if key.2.2.2 ∈ methods ∧ i.methodKey key.2.2.2 = key then some (.traitMethod i key.2.2.2)
        else none) := by
  induction methods generalizing g with
  | nil => exact ⟨h, by simp⟩
  | cons method methods ih =>
    obtain ⟨hserved, hby⟩ := ih (declareTraitMethod_served i h method)
    refine ⟨hserved, ?_⟩
    rw [List.foldl_cons, hby, servedBy_declareTraitMethod i h, Option.or_assoc]
    congr 1
    by_cases hkey : i.methodKey method = key
    · subst hkey
      rw [if_pos rfl, Option.some_or]
      exact (if_pos ⟨List.mem_cons_self, rfl⟩).symm
    · rw [if_neg hkey, Option.none_or]
      refine if_congr (and_congr_left fun hkey' => ?_) rfl rfl
      refine ⟨List.mem_cons_of_mem _, fun hmem => ?_⟩
      rcases List.mem_cons.mp hmem with heq | hmem
      · exact absurd (heq ▸ hkey') hkey
      · exact hmem

/-- The first `impl` with a method under a key is the one whose body is found under it. -/
theorem servedBy_declareTraitMethods (impls : List TraitImplInfo) {g : Generator} (h : g.Served)
    (key : String × String × String × String) :
    (declareTraitMethods impls g).servedBy key =
      (g.servedBy key).or (impls.findSome? (bodyFor key)) := by
  induction impls generalizing g with
  | nil => simp [declareTraitMethods]
  | cons i impls ih =>
    obtain ⟨hserved, hby⟩ := foldl_declareTraitMethod i i.methods h key
    have hrest := ih hserved
    rw [declareTraitMethods] at hrest ⊢
    rw [List.foldl_cons, hrest, hby, Option.or_assoc, List.findSome?_cons]
    congr 1
    rw [bodyFor]
    split_ifs
    · rfl
    · rfl

/-! ## Tables -/

theorem placeFamily_members (i : TraitImplInfo) (fms : List FamilyMember) (g : Generator) :
    (placeFamily i fms g).1.map Prod.fst = fms := by
  induction fms generalizing g with
  | nil => rfl
  | cons fm fms ih => exact congrArg (fm :: ·) (ih _)

theorem globals_placeMember (i : TraitImplInfo) (fm : FamilyMember) (g : Generator) :
    ∃ global, (g.placeMember i fm).globals = g.globals ++ [global] := by
  rw [placeMember]
  split_ifs
  · exact ⟨_, rfl⟩
  · exact ⟨_, rfl⟩

theorem length_globals_placeMember (i : TraitImplInfo) (fm : FamilyMember) (g : Generator) :
    (g.placeMember i fm).globals.length = g.globals.length + 1 := by
  obtain ⟨global, hglobal⟩ := globals_placeMember i fm g
  rw [hglobal, List.length_append]
  rfl

/-- The members get the globals that are next. -/
theorem placeFamily_indices (i : TraitImplInfo) (fms : List FamilyMember) (g : Generator) :
    (placeFamily i fms g).1.map Prod.snd = List.range' g.globals.length fms.length ∧
      (placeFamily i fms g).2.globals.length = g.globals.length + fms.length ∧
      g.globals <+: (placeFamily i fms g).2.globals := by
  induction fms generalizing g with
  | nil => exact ⟨rfl, rfl, List.prefix_rfl⟩
  | cons fm fms ih =>
    obtain ⟨hindices, hlength, hpre⟩ := ih (g.placeMember i fm)
    rw [length_globals_placeMember] at hindices hlength
    refine ⟨congrArg (g.globals.length :: ·) hindices, ?_, ?_⟩
    · rw [placeFamily, hlength, List.length_cons]
      omega
    · obtain ⟨global, hglobal⟩ := globals_placeMember i fm g
      exact (hglobal ▸ List.prefix_append _ _ : g.globals <+: _).trans hpre

/-- A member that is not the trait of the `impl`, by its name. -/
def isComponent (i : TraitImplInfo) (key : String × String) (p : FamilyMember × Nat) : Bool :=
  p.1.traitIndex ≠ i.traitIndex && p.1.key == key

/-- The table of a component is that of the last member with its name. -/
theorem lookup_component (i : TraitImplInfo) (fms : List FamilyMember) (g : Generator)
    (key : String × String) :
    (placeFamily i fms g).2.componentVtableIndex.lookup (i.vtableKey, key) =
      (((placeFamily i fms g).1.reverse.find? (isComponent i key)).map Prod.snd).or
        (g.componentVtableIndex.lookup (i.vtableKey, key)) := by
  induction fms generalizing g with
  | nil => rfl
  | cons fm fms ih =>
    rw [placeFamily, ih, List.reverse_cons, List.find?_append, Option.map_or, Option.or_assoc]
    congr 1
    by_cases htrait : fm.traitIndex = i.traitIndex
    · rw [placeMember, if_pos htrait]
      simp [isComponent, htrait]
    · rw [placeMember, if_neg htrait]
      by_cases hkey : fm.key = key
      · rw [← hkey, List.lookup_cons_self]
        simp [isComponent, htrait]
      · have hne : (i.vtableKey, key) ≠ (i.vtableKey, fm.key) := fun h =>
          hkey (congrArg Prod.snd h).symm
        rw [lookup_cons_of_ne hne]
        simp [isComponent, hkey]

/-- The table of the trait is that of the last member that is the trait. -/
theorem lookup_trait (i : TraitImplInfo) (fms : List FamilyMember) (g : Generator) :
    (placeFamily i fms g).2.vtableIndex.lookup i.vtableKey =
      (((placeFamily i fms g).1.reverse.find? (·.1.traitIndex = i.traitIndex)).map Prod.snd).or
        (g.vtableIndex.lookup i.vtableKey) := by
  induction fms generalizing g with
  | nil => rfl
  | cons fm fms ih =>
    rw [placeFamily, ih, List.reverse_cons, List.find?_append, Option.map_or, Option.or_assoc]
    congr 1
    rw [placeMember]
    by_cases htrait : fm.traitIndex = i.traitIndex
    · rw [if_pos htrait, List.lookup_cons_self]
      simp [htrait]
    · rw [if_neg htrait]
      simp [htrait]

/-- The indices of tables are those of globals. -/
structure Valid (g : Generator) : Prop where
  vtables : ∀ entry ∈ g.vtableIndex, entry.2 < g.globals.length
  components : ∀ entry ∈ g.componentVtableIndex, entry.2 < g.globals.length

theorem Valid.placeMember {g : Generator} (h : g.Valid) (i : TraitImplInfo) (fm : FamilyMember) :
    (g.placeMember i fm).Valid := by
  have hlength := length_globals_placeMember i fm g
  constructor
  · intro entry hentry
    rw [hlength]
    rw [Generator.placeMember] at hentry
    split_ifs at hentry
    · rcases List.mem_cons.mp hentry with rfl | hentry
      · exact Nat.lt_succ_self _
      · exact Nat.lt_succ_of_lt (h.vtables entry hentry)
    · exact Nat.lt_succ_of_lt (h.vtables entry hentry)
  · intro entry hentry
    rw [hlength]
    rw [Generator.placeMember] at hentry
    split_ifs at hentry
    · exact Nat.lt_succ_of_lt (h.components entry hentry)
    · rcases List.mem_cons.mp hentry with rfl | hentry
      · exact Nat.lt_succ_self _
      · exact Nat.lt_succ_of_lt (h.components entry hentry)

theorem Valid.placeFamily {g : Generator} (h : g.Valid) (i : TraitImplInfo)
    (fms : List FamilyMember) : (placeFamily i fms g).2.Valid := by
  induction fms generalizing g with
  | nil => exact h
  | cons fm fms ih => exact ih (h.placeMember i fm)

/-- Only the globals are filled. -/
theorem fillFamily_eq (i : TraitImplInfo) (placed : List (FamilyMember × Nat)) (g : Generator) :
    ∃ globals, fillFamily i placed g = { g with globals } ∧
      globals.length = g.globals.length := by
  induction placed generalizing g with
  | nil => exact ⟨_, rfl, rfl⟩
  | cons p placed ih =>
    obtain ⟨globals, heq, hlength⟩ := ih { g with globals := g.globals.set p.2 ⟨g.tableWords i p.1⟩ }
    exact ⟨globals, heq, hlength.trans List.length_set⟩

theorem globals_fillFamily_of_notMem (i : TraitImplInfo) {placed : List (FamilyMember × Nat)}
    {idx : Nat} (h : idx ∉ placed.map Prod.snd) (g : Generator) :
    (fillFamily i placed g).globals[idx]? = g.globals[idx]? := by
  induction placed generalizing g with
  | nil => rfl
  | cons p placed ih =>
    rw [List.map_cons, List.mem_cons, not_or] at h
    rw [fillFamily, ih h.2]
    exact List.getElem?_set_ne (Ne.symm h.1)

theorem globals_fillFamily (i : TraitImplInfo) {placed : List (FamilyMember × Nat)}
    (hnodup : (placed.map Prod.snd).Nodup) {g : Generator} {p : FamilyMember × Nat}
    (hp : p ∈ placed) (hlt : p.2 < g.globals.length) :
    (fillFamily i placed g).globals[p.2]? = some ⟨g.tableWords i p.1⟩ := by
  induction placed generalizing g with
  | nil => cases hp
  | cons q placed ih =>
    obtain ⟨hnotMem, hnodup⟩ := List.nodup_cons.mp hnodup
    rw [fillFamily]
    rcases List.mem_cons.mp hp with rfl | hp
    · rw [globals_fillFamily_of_notMem i hnotMem]
      exact List.getElem?_set_self hlt
    · exact ih hnodup hp (Nat.lt_of_lt_of_eq hlt List.length_set.symm)

/-- The words of a table are those for the methods, then those for the components. -/
theorem word_of_tableWords {i : TraitImplInfo} {g g' : Generator} {fm : FamilyMember} {table : Nat}
    (h : g'.globals[table]? = some ⟨g.tableWords i fm⟩) :
    (∀ k method, fm.info.methods[k]? = some method → g'.word table k = g.methodWord i method) ∧
      ∀ j c, fm.info.componentTraits[j]? = some c →
        g'.word table (fm.info.methods.length + j) = g.componentWord i c := by
  refine ⟨fun k method hk => ?_, fun j c hj => ?_⟩
  · have hlt := (List.getElem?_eq_some_iff.mp hk).1
    rw [word, h, Option.bind_some, tableWords,
      List.getElem?_append_left (Nat.lt_of_lt_of_eq hlt (List.length_map _).symm),
      List.getElem?_map, hk]
    rfl
  · rw [word, h, Option.bind_some, tableWords, List.getElem?_append_right (by simp),
      List.length_map, Nat.add_sub_cancel_left, List.getElem?_map, hj]
    rfl

end Generator

/-! ## Right tables -/

/-- The words for methods lead to the bodies of the `impl`, the words for component traits to the
    tables of these traits. -/
structure FamilyRight (g : Generator) (i : TraitImplInfo) (placed : List (FamilyMember × Nat)) :
    Prop where
  methods : ∀ p ∈ placed, ∀ k method, p.1.info.methods[k]? = some method →
    ∃ f, g.word p.2 k = some (.function f) ∧ g.functions[f]? = some (.traitMethod i method)
  components : ∀ p ∈ placed, ∀ j c, p.1.info.componentTraits[j]? = some c →
    ∃ q ∈ placed, q.1.traitIndex = c.traitIndex ∧
      g.word p.2 (p.1.info.methods.length + j) = some (.global q.2)

/-- The keys tell apart what the tables of an `impl` have to tell apart. -/
structure FamilyDistinct (traits : List TraitInfo) (impls : List TraitImplInfo) (i : TraitImplInfo)
    (info : TraitInfo) : Prop where
  /-- The `impl` has every method, and it is the first one that has it under its key. -/
  first : ∀ fm ∈ Generator.family traits i info, ∀ method ∈ fm.info.methods,
    impls.find? (fun i' => method ∈ i'.methods ∧ i'.methodKey method = i.methodKey method) = some i
  /-- No two component traits have one name. -/
  keys : ∀ a ∈ Generator.family traits i info, ∀ b ∈ Generator.family traits i info,
    a.traitIndex ≠ i.traitIndex → b.traitIndex ≠ i.traitIndex → a.key = b.key →
    a.traitIndex = b.traitIndex
  /-- A component of a component is one of the trait, under the same name. -/
  listed : ∀ fm ∈ Generator.family traits i info, ∀ c ∈ fm.info.componentTraits,
    c.traitIndex ≠ i.traitIndex →
    ∃ a ∈ Generator.family traits i info, a.traitIndex = c.traitIndex ∧ a.key = c.key

namespace Generator

/-- The body under the key of a method is that of the first `impl` with the key. -/
theorem findSome?_bodyFor (impls : List TraitImplInfo) (i : TraitImplInfo) (method : String) :
    impls.findSome? (bodyFor (i.methodKey method)) =
      (impls.find? fun i' => method ∈ i'.methods ∧ i'.methodKey method = i.methodKey method).map
        (.traitMethod · method) := by
  induction impls with
  | nil => rfl
  | cons i' impls ih =>
    have hbody : bodyFor (i.methodKey method) i' =
        if method ∈ i'.methods ∧ i'.methodKey method = i.methodKey method then
          some (.traitMethod i' method) else none := rfl
    rw [List.findSome?_cons, List.find?_cons, ih, hbody]
    by_cases h : method ∈ i'.methods ∧ i'.methodKey method = i.methodKey method
    · rw [if_pos h, decide_eq_true h]
      rfl
    · rw [if_neg h, decide_eq_false h]

/-- The word for a method leads to the body of the `impl` if that is served under the key. -/
theorem methodWord_iff {i : TraitImplInfo} {g : Generator} {method : String}
    (hmethod : method ∈ i.methods) :
    (∃ f, g.methodWord i method = some (.function f) ∧
        g.functions[f]? = some (.traitMethod i method)) ↔
      g.servedBy (i.methodKey method) = some (.traitMethod i method) := by
  rw [methodWord, if_pos hmethod, servedBy]
  constructor
  · rintro ⟨f, hword, hf⟩
    obtain ⟨f', hf', heq⟩ := Option.map_eq_some_iff.mp hword
    cases heq
    rw [hf']
    exact hf
  · intro h
    obtain ⟨f, hf, hbody⟩ := Option.bind_eq_some_iff.mp h
    exact ⟨f, by rw [hf]; rfl, hbody⟩

variable {traits : List TraitInfo} {i : TraitImplInfo} {info : TraitInfo} {g : Generator}

theorem mem_of_placed {p : FamilyMember × Nat} {fms : List FamilyMember}
    (hp : p ∈ (placeFamily i fms g).1) : p.1 ∈ fms := by
  rw [← placeFamily_members i fms g]
  exact List.mem_map_of_mem hp

theorem exists_placed {fm : FamilyMember} {fms : List FamilyMember} (hfm : fm ∈ fms) :
    ∃ p ∈ (placeFamily i fms g).1, p.1 = fm := by
  rw [← placeFamily_members i fms g] at hfm
  exact List.mem_map.mp hfm

theorem nodup_placed (fms : List FamilyMember) :
    ((placeFamily i fms g).1.map Prod.snd).Nodup := by
  rw [(placeFamily_indices i fms g).1]
  exact List.nodup_range'

/-- A global belongs to one member. -/
theorem eq_of_placed {fms : List FamilyMember} {p q : FamilyMember × Nat}
    (hp : p ∈ (placeFamily i fms g).1) (hq : q ∈ (placeFamily i fms g).1) (h : p.2 = q.2) :
    p = q :=
  List.inj_on_of_nodup_map (nodup_placed fms) hp hq h

theorem placed_bounds {fms : List FamilyMember} {p : FamilyMember × Nat}
    (hp : p ∈ (placeFamily i fms g).1) :
    g.globals.length ≤ p.2 ∧ p.2 < (placeFamily i fms g).2.globals.length := by
  obtain ⟨hindices, hlength, -⟩ := placeFamily_indices i fms g
  have hmem : p.2 ∈ (placeFamily i fms g).1.map Prod.snd := List.mem_map_of_mem hp
  rw [hindices, List.mem_range'_1] at hmem
  rw [hlength]
  exact hmem

/-- The word for a component leads to a member of its name, or to a global of another family. -/
theorem componentWord_of_ne {fms : List FamilyMember} {c : ComposedTraitRef} {table : Nat}
    (hc : c.traitIndex ≠ i.traitIndex)
    (h : (placeFamily i fms g).2.componentWord i c = some (.global table)) :
    (∃ p ∈ (placeFamily i fms g).1, p.2 = table ∧ isComponent i c.key p = true) ∨
      g.componentVtableIndex.lookup (i.vtableKey, c.key) = some table := by
  rw [componentWord, if_neg hc, lookup_component] at h
  obtain ⟨table', htable, heq⟩ := Option.map_eq_some_iff.mp h
  cases heq
  rcases Option.or_eq_some_iff.mp htable with hfound | ⟨-, hbefore⟩
  · obtain ⟨p, hp, rfl⟩ := Option.map_eq_some_iff.mp hfound
    exact .inl ⟨p, List.mem_reverse.mp (List.mem_of_find?_eq_some hp), rfl, List.find?_some hp⟩
  · exact .inr hbefore

/-- If there is a member of the name, the word leads to one. -/
theorem componentWord_of_placed {fms : List FamilyMember} {c : ComposedTraitRef}
    (hc : c.traitIndex ≠ i.traitIndex) {p : FamilyMember × Nat}
    (hp : p ∈ (placeFamily i fms g).1) (hkey : isComponent i c.key p = true) :
    ∃ q ∈ (placeFamily i fms g).1, isComponent i c.key q = true ∧
      (placeFamily i fms g).2.componentWord i c = some (.global q.2) := by
  have hfound : ((placeFamily i fms g).1.reverse.find? (isComponent i c.key)).isSome = true :=
    List.find?_isSome.mpr ⟨p, List.mem_reverse.mpr hp, hkey⟩
  obtain ⟨q, hq⟩ := Option.isSome_iff_exists.mp hfound
  refine ⟨q, List.mem_reverse.mp (List.mem_of_find?_eq_some hq), List.find?_some hq, ?_⟩
  rw [componentWord, if_neg hc, lookup_component, hq]
  rfl

/-- The word for the trait of the `impl` itself leads to a member that is the trait. -/
theorem componentWord_of_eq {fms : List FamilyMember} {c : ComposedTraitRef}
    (hc : c.traitIndex = i.traitIndex) {p : FamilyMember × Nat}
    (hp : p ∈ (placeFamily i fms g).1) (htrait : p.1.traitIndex = i.traitIndex) :
    ∃ q ∈ (placeFamily i fms g).1, q.1.traitIndex = c.traitIndex ∧
      (placeFamily i fms g).2.componentWord i c = some (.global q.2) := by
  have hfound : ((placeFamily i fms g).1.reverse.find?
      (·.1.traitIndex = i.traitIndex)).isSome = true :=
    List.find?_isSome.mpr ⟨p, List.mem_reverse.mpr hp, decide_eq_true htrait⟩
  obtain ⟨q, hq⟩ := Option.isSome_iff_exists.mp hfound
  refine ⟨q, List.mem_reverse.mp (List.mem_of_find?_eq_some hq),
    (by simpa using List.find?_some hq : q.1.traitIndex = i.traitIndex).trans hc.symm, ?_⟩
  rw [componentWord, if_pos hc, lookup_trait, hq]
  rfl

/-- A name leads to at most one global, so a word leads to the member with the global. -/
theorem isComponent_of_componentWord (hvalid : g.Valid) {fms : List FamilyMember}
    {c : ComposedTraitRef} (hc : c.traitIndex ≠ i.traitIndex) {q : FamilyMember × Nat}
    (hq : q ∈ (placeFamily i fms g).1)
    (h : (placeFamily i fms g).2.componentWord i c = some (.global q.2)) :
    isComponent i c.key q = true := by
  rcases componentWord_of_ne hc h with ⟨p, hp, heq, hkey⟩ | hbefore
  · rwa [eq_of_placed hp hq heq] at hkey
  · have hlt : q.2 < g.globals.length := hvalid.components _ (mem_of_lookup hbefore)
    exact absurd (placed_bounds hq).1 (Nat.not_le.mpr hlt)

theorem isComponent_iff {key : String × String} {p : FamilyMember × Nat} :
    isComponent i key p = true ↔ p.1.traitIndex ≠ i.traitIndex ∧ p.1.key = key := by
  simp [isComponent]

/-- A member other than the trait of the `impl` is an entry of its list of components. -/
theorem component_of_mem_family {fm : FamilyMember} (hfm : fm ∈ family traits i info)
    (hne : fm.traitIndex ≠ i.traitIndex) :
    ∃ c ∈ info.componentTraits, c.traitIndex = fm.traitIndex ∧ c.key = fm.key := by
  rcases List.mem_cons.mp hfm with rfl | hfm
  · exact absurd rfl hne
  · obtain ⟨c, hc, hmap⟩ := List.mem_filterMap.mp hfm
    obtain ⟨info', -, rfl⟩ := Option.map_eq_some_iff.mp hmap
    exact ⟨c, hc, rfl, rfl⟩

/-- What a member knows of its trait is what the trait is. -/
theorem info_of_mem_family {fm : FamilyMember} (hinfo : traits[i.traitIndex]? = some info)
    (hfm : fm ∈ family traits i info) : traits[fm.traitIndex]? = some fm.info := by
  rcases List.mem_cons.mp hfm with rfl | hfm
  · exact hinfo
  · obtain ⟨c, hc, hmap⟩ := List.mem_filterMap.mp hfm
    obtain ⟨info', hinfo', rfl⟩ := Option.map_eq_some_iff.mp hmap
    exact hinfo'

/-- The tables of a new family, by the words that are looked up for it. -/
theorem familyRight_iff_words (fms : List FamilyMember) :
    FamilyRight (fillFamily i (placeFamily i fms g).1 (placeFamily i fms g).2) i
        (placeFamily i fms g).1 ↔
      (∀ fm ∈ fms, ∀ method ∈ fm.info.methods, ∃ f,
        (placeFamily i fms g).2.methodWord i method = some (.function f) ∧
          (placeFamily i fms g).2.functions[f]? = some (.traitMethod i method)) ∧
      ∀ fm ∈ fms, ∀ c ∈ fm.info.componentTraits, ∃ q ∈ (placeFamily i fms g).1,
        q.1.traitIndex = c.traitIndex ∧
          (placeFamily i fms g).2.componentWord i c = some (.global q.2) := by
  obtain ⟨globals, hfill, -⟩ :=
    fillFamily_eq i (placeFamily i fms g).1 (placeFamily i fms g).2
  have hfunctions : (fillFamily i (placeFamily i fms g).1 (placeFamily i fms g).2).functions =
      (placeFamily i fms g).2.functions := by
    rw [hfill]
  have hword {p : FamilyMember × Nat} (hp : p ∈ (placeFamily i fms g).1) :=
    word_of_tableWords (globals_fillFamily i (nodup_placed fms) hp (placed_bounds hp).2)
  constructor
  · rintro ⟨hmethods, hcomponents⟩
    refine ⟨fun fm hfm method hmethod => ?_, fun fm hfm c hc => ?_⟩
    · obtain ⟨p, hp, rfl⟩ := exists_placed (i := i) (g := g) hfm
      obtain ⟨k, hk⟩ := List.mem_iff_getElem?.mp hmethod
      rw [← (hword hp).1 k method hk, ← hfunctions]
      exact hmethods p hp k method hk
    · obtain ⟨p, hp, rfl⟩ := exists_placed (i := i) (g := g) hfm
      obtain ⟨j, hj⟩ := List.mem_iff_getElem?.mp hc
      rw [← (hword hp).2 j c hj]
      exact hcomponents p hp j c hj
  · rintro ⟨hmethods, hcomponents⟩
    refine ⟨fun p hp k method hk => ?_, fun p hp j c hj => ?_⟩
    · rw [(hword hp).1 k method hk, hfunctions]
      exact hmethods p.1 (mem_of_placed hp) method (List.mem_of_getElem? hk)
    · rw [(hword hp).2 j c hj]
      exact hcomponents p.1 (mem_of_placed hp) c (List.mem_of_getElem? hj)

theorem functions_placeFamily (fms : List FamilyMember) (g : Generator) :
    (placeFamily i fms g).2.functions = g.functions ∧
      (placeFamily i fms g).2.methodIndex = g.methodIndex := by
  induction fms generalizing g with
  | nil => exact ⟨rfl, rfl⟩
  | cons fm fms ih =>
    obtain ⟨hfunctions, hindex⟩ := ih (g.placeMember i fm)
    rw [placeFamily, hfunctions, hindex, placeMember]
    split_ifs
    · exact ⟨rfl, rfl⟩
    · exact ⟨rfl, rfl⟩

/-- The words for methods are right if and only if the `impl` is the first one under their keys. -/
theorem methodWords_iff {impls : List TraitImplInfo}
    (hserved : ∀ key, g.servedBy key = impls.findSome? (bodyFor key)) (method : String) :
    (∃ f, g.methodWord i method = some (.function f) ∧
        g.functions[f]? = some (.traitMethod i method)) ↔
      impls.find? (fun i' => method ∈ i'.methods ∧ i'.methodKey method = i.methodKey method) =
        some i := by
  have hfirst : g.servedBy (i.methodKey method) = some (.traitMethod i method) ↔
      impls.find? (fun i' => method ∈ i'.methods ∧ i'.methodKey method = i.methodKey method) =
        some i := by
    rw [hserved, findSome?_bodyFor, Option.map_eq_some_iff]
    constructor
    · rintro ⟨i', hi', heq⟩
      rw [hi', (Function.traitMethod.inj heq).1]
    · exact fun h => ⟨i, h, rfl⟩
  by_cases hmethod : method ∈ i.methods
  · rw [methodWord_iff hmethod, hfirst]
  · constructor
    · rintro ⟨f, hf, -⟩
      rw [methodWord, if_neg hmethod] at hf
      cases hf
    · intro h
      have hmem : method ∈ i.methods ∧ i.methodKey method = i.methodKey method := by
        simpa using List.find?_some h
      exact absurd hmem.1 hmethod

/-- The tables of a new family are right if and only if the keys are distinct enough. -/
theorem familyRight_placeFamily (traits : List TraitInfo) (info : TraitInfo) (i : TraitImplInfo)
    {impls : List TraitImplInfo} (hvalid : g.Valid)
    (hserved : ∀ key, g.servedBy key = impls.findSome? (bodyFor key)) :
    FamilyRight
        (fillFamily i (placeFamily i (family traits i info) g).1
          (placeFamily i (family traits i info) g).2) i
        (placeFamily i (family traits i info) g).1 ↔
      FamilyDistinct traits impls i info := by
  have hserved' (key) : (placeFamily i (family traits i info) g).2.servedBy key =
      impls.findSome? (bodyFor key) := by
    rw [← hserved, servedBy, servedBy, (functions_placeFamily _ g).1, (functions_placeFamily _ g).2]
  have hhead : (⟨info, i.traitModule, i.traitName, i.traitIndex⟩ : FamilyMember) ∈
      family traits i info := List.mem_cons_self
  rw [familyRight_iff_words]
  constructor
  · rintro ⟨hmethods, hcomponents⟩
    constructor
    · intro fm hfm method hmethod
      exact (methodWords_iff hserved' method).mp (hmethods fm hfm method hmethod)
    · intro a ha b hb hane hbne hkey
      -- Both names are looked up for the trait of the impl, and one word is found.
      obtain ⟨ca, hca, hcai, hcak⟩ := component_of_mem_family ha hane
      obtain ⟨cb, hcb, hcbi, hcbk⟩ := component_of_mem_family hb hbne
      obtain ⟨qa, hqa, hqai, hwa⟩ := hcomponents _ hhead ca hca
      obtain ⟨qb, hqb, hqbi, hwb⟩ := hcomponents _ hhead cb hcb
      have hsame : (placeFamily i (family traits i info) g).2.componentWord i ca =
          (placeFamily i (family traits i info) g).2.componentWord i cb := by
        rw [componentWord, componentWord, if_neg (hcai ▸ hane), if_neg (hcbi ▸ hbne), hcak, hcbk,
          hkey]
      rw [hsame, hwb] at hwa
      have hq : qa = qb := eq_of_placed hqa hqb (Target.global.inj (Option.some.inj hwa)).symm
      rw [← hcai, ← hqai, hq, hqbi, hcbi]
    · intro fm hfm c hc hne
      obtain ⟨q, hq, hqi, hw⟩ := hcomponents fm hfm c hc
      have hcomponent := isComponent_of_componentWord hvalid hne hq hw
      exact ⟨q.1, mem_of_placed hq, hqi, (isComponent_iff.mp hcomponent).2⟩
  · rintro ⟨hfirst, hkeys, hlisted⟩
    refine ⟨fun fm hfm method hmethod => ?_, fun fm hfm c hc => ?_⟩
    · exact (methodWords_iff hserved' method).mpr (hfirst fm hfm method hmethod)
    · by_cases hne : c.traitIndex = i.traitIndex
      · obtain ⟨p, hp, hpi⟩ := exists_placed (i := i) (g := g) hhead
        exact componentWord_of_eq hne hp (by rw [hpi])
      · obtain ⟨a, ha, hai, hak⟩ := hlisted fm hfm c hc hne
        obtain ⟨p, hp, rfl⟩ := exists_placed (i := i) (g := g) ha
        have hpne : p.1.traitIndex ≠ i.traitIndex := hai ▸ hne
        obtain ⟨q, hq, hcomponent, hw⟩ :=
          componentWord_of_placed hne hp (isComponent_iff.mpr ⟨hpne, hak⟩)
        obtain ⟨hqne, hqk⟩ := isComponent_iff.mp hcomponent
        refine ⟨q, hq, ?_, hw⟩
        rw [hkeys q.1 (mem_of_placed hq) p.1 ha hqne hpne (hqk.trans hak.symm), hai]

/-! ## All families -/

/-- What the words of a family depend on. -/
theorem FamilyRight.congr {g' : Generator} {placed : List (FamilyMember × Nat)}
    (hfunctions : g'.functions = g.functions)
    (hglobals : ∀ p ∈ placed, g'.globals[p.2]? = g.globals[p.2]?) :
    FamilyRight g' i placed ↔ FamilyRight g i placed := by
  have hword {p : FamilyMember × Nat} (hp : p ∈ placed) (k : Nat) :
      g'.word p.2 k = g.word p.2 k := by
    rw [word, word, hglobals p hp]
  constructor
  · rintro ⟨hmethods, hcomponents⟩
    refine ⟨fun p hp k method hk => ?_, fun p hp j c hj => ?_⟩
    · rw [← hword hp, ← hfunctions]
      exact hmethods p hp k method hk
    · rw [← hword hp]
      exact hcomponents p hp j c hj
  · rintro ⟨hmethods, hcomponents⟩
    refine ⟨fun p hp k method hk => ?_, fun p hp j c hj => ?_⟩
    · rw [hword hp, hfunctions]
      exact hmethods p hp k method hk
    · rw [hword hp]
      exact hcomponents p hp j c hj

theorem declareVtablesOf_of_none (h : traits[i.traitIndex]? = none) :
    declareVtablesOf traits g i = g := by
  rw [declareVtablesOf, h]

theorem families_placeFamily (fms : List FamilyMember) (g : Generator) :
    (placeFamily i fms g).2.families = g.families := by
  induction fms generalizing g with
  | nil => rfl
  | cons fm fms ih =>
    rw [placeFamily, ih, placeMember]
    split_ifs
    · rfl
    · rfl

/-- The tables of an `impl` come after all others, which keep their words. -/
theorem declareVtablesOf_spec {impls : List TraitImplInfo} (hvalid : g.Valid)
    (hserved : ∀ key, g.servedBy key = impls.findSome? (bodyFor key))
    (hinfo : traits[i.traitIndex]? = some info) :
    ∃ placed, (declareVtablesOf traits g i).families = g.families ++ [(i, placed)] ∧
      placed.map Prod.fst = family traits i info ∧
      (FamilyRight (declareVtablesOf traits g i) i placed ↔ FamilyDistinct traits impls i info) ∧
      (∀ p ∈ placed, p.2 < (declareVtablesOf traits g i).globals.length) ∧
      (declareVtablesOf traits g i).Valid ∧
      (declareVtablesOf traits g i).functions = g.functions ∧
      (declareVtablesOf traits g i).methodIndex = g.methodIndex ∧
      ∀ idx < g.globals.length, idx < (declareVtablesOf traits g i).globals.length ∧
        (declareVtablesOf traits g i).globals[idx]? = g.globals[idx]? := by
  obtain ⟨hfunctions, hindex⟩ := functions_placeFamily (i := i) (family traits i info) g
  obtain ⟨-, hlength, hpre⟩ := placeFamily_indices i (family traits i info) g
  have hfamilies := families_placeFamily (i := i) (family traits i info) g
  have hplaced := hvalid.placeFamily i (family traits i info)
  have hright := familyRight_placeFamily traits info i hvalid hserved
  obtain ⟨globals, hfill, hfilled⟩ := fillFamily_eq i
    (placeFamily i (family traits i info) g).1 (placeFamily i (family traits i info) g).2
  have hold {idx : Nat} (hidx : idx < g.globals.length) :
      (fillFamily i (placeFamily i (family traits i info) g).1
        (placeFamily i (family traits i info) g).2).globals[idx]? = g.globals[idx]? := by
    rw [globals_fillFamily_of_notMem]
    · exact (List.prefix_iff_getElem?.mp hpre idx hidx).trans
        (List.getElem?_eq_getElem hidx).symm
    · intro hmem
      obtain ⟨p, hp, rfl⟩ := List.mem_map.mp hmem
      exact absurd (placed_bounds hp).1 (Nat.not_le.mpr hidx)
  rw [declareVtablesOf, hinfo]
  rw [hfill] at hold hright
  simp only [hfill, hfilled]
  refine ⟨_, by rw [hfamilies], placeFamily_members i _ g, ?_, fun p hp => (placed_bounds hp).2,
    ?_, hfunctions, hindex, fun idx hidx => ⟨?_, hold hidx⟩⟩
  · refine Iff.trans ?_ hright
    exact FamilyRight.congr rfl fun p hp => rfl
  · constructor
    · intro entry hentry
      exact Nat.lt_of_lt_of_eq (hplaced.vtables entry hentry) hfilled.symm
    · intro entry hentry
      exact Nat.lt_of_lt_of_eq (hplaced.components entry hentry) hfilled.symm
  · rw [hlength]
    exact Nat.lt_add_right _ hidx

/-- What holds after the tables of the implementations `seen` are made. -/
structure Made (traits : List TraitInfo) (impls seen : List TraitImplInfo) (g : Generator) :
    Prop where
  valid : g.Valid
  served : ∀ key, g.servedBy key = impls.findSome? (bodyFor key)
  bounds : ∀ entry ∈ g.families, ∀ p ∈ entry.2, p.2 < g.globals.length
  complete : ∀ i ∈ seen, ∀ info, traits[i.traitIndex]? = some info →
    ∃ placed, (i, placed) ∈ g.families ∧ placed.map Prod.fst = family traits i info
  sound : ∀ entry ∈ g.families, ∃ info, entry.1 ∈ seen ∧
    traits[entry.1.traitIndex]? = some info ∧
    entry.2.map Prod.fst = family traits entry.1 info ∧
    (FamilyRight g entry.1 entry.2 ↔ FamilyDistinct traits impls entry.1 info)

theorem Made.step {impls seen : List TraitImplInfo} (h : Made traits impls seen g)
    (i : TraitImplInfo) : Made traits impls (seen ++ [i]) (declareVtablesOf traits g i) := by
  rcases hinfo : traits[i.traitIndex]? with _ | info
  · rw [declareVtablesOf_of_none hinfo]
    refine ⟨h.valid, h.served, h.bounds, fun i' hi' info' hinfo' => ?_, fun entry hentry => ?_⟩
    · rcases List.mem_append.mp hi' with hi' | hi'
      · exact h.complete i' hi' info' hinfo'
      · rw [List.mem_singleton.mp hi', hinfo] at hinfo'
        cases hinfo'
    · obtain ⟨info', hseen, hrest⟩ := h.sound entry hentry
      exact ⟨info', List.mem_append_left _ hseen, hrest⟩
  · obtain ⟨placed, hfamilies, hmembers, hright, hbounds, hvalid, hfunctions, hindex, hold⟩ :=
      declareVtablesOf_spec h.valid h.served hinfo
    refine ⟨hvalid, fun key => ?_, fun entry hentry => ?_, fun i' hi' info' hinfo' => ?_,
      fun entry hentry => ?_⟩
    · rw [servedBy, hfunctions, hindex]
      exact h.served key
    · rw [hfamilies] at hentry
      rcases List.mem_append.mp hentry with hentry | hentry
      · exact fun p hp => (hold p.2 (h.bounds entry hentry p hp)).1
      · rw [List.mem_singleton.mp hentry]
        exact hbounds
    · rw [hfamilies]
      rcases List.mem_append.mp hi' with hi' | hi'
      · obtain ⟨placed', hmem, hfst⟩ := h.complete i' hi' info' hinfo'
        exact ⟨placed', List.mem_append_left _ hmem, hfst⟩
      · cases List.mem_singleton.mp hi'
        cases hinfo.symm.trans hinfo'
        exact ⟨placed, List.mem_append_right _ List.mem_cons_self, hmembers⟩
    · rw [hfamilies] at hentry
      rcases List.mem_append.mp hentry with hentry | hentry
      · obtain ⟨info', hseen, hinfo', hfst, hiff⟩ := h.sound entry hentry
        refine ⟨info', List.mem_append_left _ hseen, hinfo', hfst, Iff.trans ?_ hiff⟩
        exact FamilyRight.congr hfunctions fun p hp =>
          (hold p.2 (h.bounds entry hentry p hp)).2
      · cases List.mem_singleton.mp hentry
        exact ⟨info, List.mem_append_right _ List.mem_cons_self, hinfo, hmembers, hright⟩

theorem Made.foldl {impls : List TraitImplInfo} (rest : List TraitImplInfo)
    {seen : List TraitImplInfo} (h : Made traits impls seen g) :
    Made traits impls (seen ++ rest) (rest.foldl (declareVtablesOf traits) g) := by
  induction rest generalizing seen g with
  | nil => simpa using h
  | cons i rest ih =>
    have hrest := ih (h.step i)
    rwa [List.append_assoc] at hrest

theorem foldl_declareTraitMethod_globals (i : TraitImplInfo) (methods : List String)
    (g : Generator) :
    (methods.foldl (declareTraitMethod i) g).vtableIndex = g.vtableIndex ∧
      (methods.foldl (declareTraitMethod i) g).componentVtableIndex = g.componentVtableIndex ∧
      (methods.foldl (declareTraitMethod i) g).families = g.families := by
  induction methods generalizing g with
  | nil => exact ⟨rfl, rfl, rfl⟩
  | cons method methods ih =>
    obtain ⟨hvtables, hcomponents, hfamilies⟩ := ih (g.declareTraitMethod i method)
    rw [List.foldl_cons, hvtables, hcomponents, hfamilies, declareTraitMethod]
    split_ifs
    · exact ⟨rfl, rfl, rfl⟩
    · exact ⟨rfl, rfl, rfl⟩

/-- Methods are declared before there are tables. -/
theorem declareTraitMethods_tables (impls : List TraitImplInfo) (g : Generator) :
    (declareTraitMethods impls g).vtableIndex = g.vtableIndex ∧
      (declareTraitMethods impls g).componentVtableIndex = g.componentVtableIndex ∧
      (declareTraitMethods impls g).families = g.families := by
  induction impls generalizing g with
  | nil => exact ⟨rfl, rfl, rfl⟩
  | cons i impls ih =>
    obtain ⟨hvtables, hcomponents, hfamilies⟩ :=
      foldl_declareTraitMethod_globals i i.methods g
    have hrest := ih (i.methods.foldl (declareTraitMethod i) g)
    rw [hvtables, hcomponents, hfamilies] at hrest
    exact hrest

theorem made_generate (traits : List TraitInfo) (impls : List TraitImplInfo) :
    Made traits impls impls (generate traits impls) := by
  have hserved : ({} : Generator).Served := fun _ hentry => nomatch hentry
  obtain ⟨hvtables, hcomponents, hfamilies⟩ := declareTraitMethods_tables impls {}
  have hstart : Made traits impls [] (declareTraitMethods impls {}) := by
    refine ⟨⟨?_, ?_⟩, fun key => ?_, ?_, fun i hi => (nomatch hi), ?_⟩
    · rw [hvtables]
      exact fun _ hentry => nomatch hentry
    · rw [hcomponents]
      exact fun _ hentry => nomatch hentry
    · exact servedBy_declareTraitMethods impls hserved key
    · rw [hfamilies]
      exact fun _ hentry => nomatch hentry
    · rw [hfamilies]
      exact fun _ hentry => nomatch hentry
  exact hstart.foldl impls

/-- The body that a call of a method through a table reaches. -/
def called (g : Generator) (table k : Nat) : Option Function :=
  match g.word table k with
  | some (.function f) => g.functions[f]?
  | _ => none

/-! ## Narrowings -/

/-- A narrowing leads from the table of one member of a family to that of another. -/
theorem narrow_step {placed : List (FamilyMember × Nat)} (hright : FamilyRight g i placed)
    {p : FamilyMember × Nat} (hp : p ∈ placed) {target slot : Nat}
    (hinfo : traits[p.1.traitIndex]? = some p.1.info)
    (hslot : slotIndex traits p.1.traitIndex target = some slot) :
    ∃ q ∈ placed, q.1.traitIndex = target ∧ g.word p.2 slot = some (.global q.2) := by
  rw [slotIndex, hinfo, Option.bind_some] at hslot
  obtain ⟨j, hj, rfl⟩ := Option.map_eq_some_iff.mp hslot
  obtain ⟨hlt, htarget, -⟩ := List.findIdx?_eq_some_iff_getElem.mp hj
  obtain ⟨q, hq, hqi, hword⟩ := hright.components p hp j _ (List.getElem?_eq_getElem hlt)
  exact ⟨q, hq, hqi.trans (of_decide_eq_true htarget), hword⟩

/-- So does a chain of narrowings. -/
theorem narrow_of_narrows {placed : List (FamilyMember × Nat)} (hright : FamilyRight g i placed)
    (hinfo : ∀ p ∈ placed, traits[p.1.traitIndex]? = some p.1.info) {source last : Nat}
    {targets : List Nat} (h : Narrows traits source targets last) {p : FamilyMember × Nat}
    (hp : p ∈ placed) (hsource : p.1.traitIndex = source) :
    ∃ q ∈ placed, q.1.traitIndex = last ∧ narrow traits g source p.2 targets = some q.2 := by
  induction h generalizing p with
  | refl source => exact ⟨p, hp, hsource, rfl⟩
  | cons hslot h ih =>
    subst hsource
    obtain ⟨q, hq, hqi, hword⟩ := narrow_step hright hp (hinfo p hp) hslot
    obtain ⟨r, hr, hri, hnarrow⟩ := ih hq hqi
    refine ⟨r, hr, hri, ?_⟩
    rw [narrow, hslot, Option.bind_some, hword]
    exact hnarrow

end Generator

/-! ## Dispatch -/

/-- Every `impl` has a table for its trait and every component, with the right words, and a call
    of a method of a trait that a chain of narrowings leads to reaches its body. -/
structure Dispatches (traits : List TraitInfo) (impls : List TraitImplInfo) : Prop where
  made : ∀ i ∈ impls, ∀ info, traits[i.traitIndex]? = some info →
    ∃ placed, (i, placed) ∈ (generate traits impls).families ∧
      placed.map Prod.fst = Generator.family traits i info
  right : ∀ entry ∈ (generate traits impls).families,
    FamilyRight (generate traits impls) entry.1 entry.2
  calls : ∀ entry ∈ (generate traits impls).families, ∀ p ∈ entry.2,
    p.1.traitIndex = entry.1.traitIndex → ∀ targets last,
    Narrows traits entry.1.traitIndex targets last →
    ∃ table info, narrow traits (generate traits impls) entry.1.traitIndex p.2 targets = some table ∧
      traits[last]? = some info ∧ ∀ k method, info.methods[k]? = some method →
        (generate traits impls).called table k = some (.traitMethod entry.1 method)

end Mirage.Lang.Vtables
