import Mirage.Lib.Actions
import Mirage.Lib.Table
import Mirage.Lang.GenericInstances

/-!
# Coherence of the tables of generic instances

The tables are *coherent* if the indices in them are those of instances, and each request that is
cached leads to the instance that was made for it. To check code keeps them coherent, however the
requests nest (`runAll_keeps`).

To check an excluded file does not: what it asked for is dropped from the list of instances, but
not from the cache, nor from the methods that were checked at their declarations; and the instances
that it found in the cache are needed afterwards (`excluded_request_dangles`). The tables stay
coherent, and as they were, if every excluded file is *quiet*: it asks for instances only that are
cached and needed already (`passes_keep_coherent`).
-/

namespace Mirage.Lang.Generic

variable {Ty : Type} {containsOpaque : Ty → Bool}

/-- The instance was made for the module, the declaration and the arguments of the request, or
    stands for its failure. -/
def GenericFunctionInstance.CreatedFor (inst : GenericFunctionInstance Ty)
    (key : GenericInstanceKey Ty) : Prop :=
  (inst.decl = none ∧ inst.implDecl = none) ∨
    (inst.modulePath = key.modulePath ∧ inst.args = key.args ∧
      ((∃ decl, inst.decl = some decl ∧ key.declName = decl.name) ∨
        ∃ decl typeName, inst.implDecl = some decl ∧
          key.declName = typeName ++ "::" ++ decl.name))

/-- The indices in the tables are those of instances. An index is in the cache once, so that a
    failed request has an instance of its own, too. -/
structure Coherent (t : Tables Ty) : Prop where
  lookup : ∀ entry ∈ t.lookup, ∃ inst, t.instances[entry.2]? = some inst ∧ inst.CreatedFor entry.1
  lookup_once : (t.lookup.map Prod.snd).Nodup
  needed : ∀ idx ∈ t.needed, idx < t.instances.length
  exprs : ∀ idx ∈ t.exprs, idx < t.instances.length
  templateFn : ∀ entry ∈ t.templateFn, entry.2 < t.instances.length
  templateMethod : ∀ entry ∈ t.templateMethod, entry.2 < t.instances.length

theorem Coherent.empty : Coherent ({} : Tables Ty) where
  lookup := List.forall_mem_nil _
  lookup_once := .nil
  needed := List.forall_mem_nil _
  exprs := List.forall_mem_nil _
  templateFn := List.forall_mem_nil _
  templateMethod := List.forall_mem_nil _

theorem Coherent.lookup_lt {t : Tables Ty} (h : Coherent t) {entry : GenericInstanceKey Ty × Nat}
    (hentry : entry ∈ t.lookup) : entry.2 < t.instances.length := by
  obtain ⟨inst, hinst, -⟩ := h.lookup entry hentry
  exact (List.getElem?_eq_some_iff.mp hinst).1

/-! ## Checks keep the tables coherent -/

theorem Tables.of_mem_assign {Decl : Type} [DecidableEq Decl] {table : List (Decl × Nat)} {decl : Decl}
    {idx : Nat} {entry : Decl × Nat} (h : entry ∈ Tables.assign table decl idx) :
    entry ∈ table ∨ entry = (decl, idx) := by
  rcases List.mem_cons.mp h with h | h
  · exact .inr h
  · exact .inl (List.mem_of_mem_filter h)

/-- A change of the tables that keeps them coherent and drops no instance. -/
def Keeps (f : Tables Ty → Tables Ty) : Prop :=
  ∀ t, Coherent t → Coherent (f t) ∧ t.instances.length ≤ (f t).instances.length

namespace Coherent

variable {t : Tables Ty}

/-- One more instance. -/
theorem push (h : Coherent t) (inst : GenericFunctionInstance Ty) :
    Coherent { t with instances := t.instances ++ [inst] } where
  lookup entry hentry := by
    obtain ⟨inst', hinst', hcreated⟩ := h.lookup entry hentry
    exact ⟨inst', List.getElem?_append_left (h.lookup_lt hentry) ▸ hinst', hcreated⟩
  lookup_once := h.lookup_once
  needed idx hidx := by
    rw [List.length_append]
    exact Nat.lt_add_right _ (h.needed idx hidx)
  exprs idx hidx := by
    rw [List.length_append]
    exact Nat.lt_add_right _ (h.exprs idx hidx)
  templateFn entry hentry := by
    rw [List.length_append]
    exact Nat.lt_add_right _ (h.templateFn entry hentry)
  templateMethod entry hentry := by
    rw [List.length_append]
    exact Nat.lt_add_right _ (h.templateMethod entry hentry)

theorem insertExprs (h : Coherent t) {idx : Nat} (hidx : idx < t.instances.length) :
    Coherent { t with exprs := t.exprs.insert idx } where
  lookup := h.lookup
  lookup_once := h.lookup_once
  needed := h.needed
  exprs i hi := by
    rcases List.mem_insert_iff.mp hi with rfl | hi
    · exact hidx
    · exact h.exprs i hi
  templateFn := h.templateFn
  templateMethod := h.templateMethod

theorem markNeeded (h : Coherent t) {idx : Nat} (hidx : idx < t.instances.length) :
    Coherent (t.markNeeded idx) := by
  rw [Tables.markNeeded]
  split_ifs
  · refine ⟨h.lookup, h.lookup_once, fun i hi => ?_, h.exprs, h.templateFn, h.templateMethod⟩
    rcases List.mem_insert_iff.mp hi with rfl | hi
    · exact hidx
    · exact h.needed i hi
  · exact h

theorem setChecked (h : Coherent t) {idx : Nat} {inst : GenericFunctionInstance Ty}
    (hinst : t.instances[idx]? = some inst) :
    Coherent { t with instances := t.instances.set idx { inst with bodyChecked := true } } where
  lookup entry hentry := by
    obtain ⟨inst', hinst', hcreated⟩ := h.lookup entry hentry
    by_cases heq : idx = entry.2
    · subst heq
      obtain rfl : inst = inst' := Option.some.inj (hinst.symm.trans hinst')
      exact ⟨_, List.getElem?_set_self (h.lookup_lt hentry), hcreated⟩
    · exact ⟨inst', (List.getElem?_set_ne heq).trans hinst', hcreated⟩
  lookup_once := h.lookup_once
  needed idx hidx := List.length_set.symm ▸ h.needed idx hidx
  exprs idx hidx := List.length_set.symm ▸ h.exprs idx hidx
  templateFn entry hentry := List.length_set.symm ▸ h.templateFn entry hentry
  templateMethod entry hentry := List.length_set.symm ▸ h.templateMethod entry hentry

theorem assignTemplateFn (h : Coherent t) (decl : FunctionDecl) {idx : Nat}
    (hidx : idx < t.instances.length) :
    Coherent { t with templateFn := Tables.assign t.templateFn decl idx } := by
  refine ⟨h.lookup, h.lookup_once, h.needed, h.exprs, fun entry hentry => ?_, h.templateMethod⟩
  rcases Tables.of_mem_assign hentry with hentry | rfl
  · exact h.templateFn entry hentry
  · exact hidx

theorem recordTemplateMethod (h : Coherent t) {idx : Nat} (hidx : idx < t.instances.length) :
    Coherent (t.recordTemplateMethod idx) := by
  rw [Tables.recordTemplateMethod]
  split
  · exact h
  · refine ⟨h.lookup, h.lookup_once, h.needed, h.exprs, h.templateFn, fun entry hentry => ?_⟩
    rcases Tables.of_mem_assign hentry with hentry | rfl
    · exact h.templateMethod entry hentry
    · exact hidx

theorem depth (h : Coherent t) (d : Nat) : Coherent { t with templateCheckDepth := d } :=
  ⟨h.lookup, h.lookup_once, h.needed, h.exprs, h.templateFn, h.templateMethod⟩

end Coherent

theorem Tables.instances_recordTemplateMethod (idx : Nat) (t : Tables Ty) :
    (t.recordTemplateMethod idx).instances = t.instances := by
  rw [Tables.recordTemplateMethod]
  split <;> rfl

theorem keeps_id : Keeps (id : Tables Ty → Tables Ty) := fun _ h => ⟨h, Nat.le_refl _⟩

/-- The body of an instance that is checked keeps what bodies keep. -/
theorem Keeps.checkBody {body : Tables Ty → Tables Ty} (hbody : Keeps body) (idx : Nat) :
    Keeps (Tables.checkGenericFunctionInstanceBody idx body) := by
  intro t h
  rw [Tables.checkGenericFunctionInstanceBody]
  split
  · exact ⟨h, Nat.le_refl _⟩
  · rename_i inst hinst
    split_ifs
    · exact ⟨h, Nat.le_refl _⟩
    · exact ⟨h.setChecked hinst, Nat.le_of_eq List.length_set.symm⟩
    · have hidx := (List.getElem?_eq_some_iff.mp hinst).1
      obtain ⟨hcoherent, hle⟩ := hbody _
        ((h.setChecked hinst).insertExprs (List.length_set.symm ▸ hidx))
      exact ⟨hcoherent, Nat.le_trans (Nat.le_of_eq List.length_set.symm) hle⟩

/-- A request keeps the tables coherent, and its result is an instance. -/
structure Made (t : Tables Ty) (result : Nat × Tables Ty) : Prop where
  coherent : Coherent result.2
  length_le : t.instances.length ≤ result.2.instances.length
  lt : result.1 < result.2.instances.length

/-- A request, then the check of a body. -/
theorem Made.checkBody {t : Tables Ty} {made : Nat × Tables Ty} (h : Made t made)
    {body : Tables Ty → Tables Ty} (hbody : Keeps body) :
    Made t (made.1, made.2.checkGenericFunctionInstanceBody made.1 body) := by
  obtain ⟨hcoherent, hle⟩ := hbody.checkBody made.1 made.2 h.coherent
  exact ⟨hcoherent, Nat.le_trans h.length_le hle, Nat.lt_of_lt_of_le h.lt hle⟩

/-- Before a request, the check of a signature. -/
theorem Made.after {t t' : Tables Ty} {made : Nat × Tables Ty}
    (hle : t.instances.length ≤ t'.instances.length) (h : Made t' made) : Made t made :=
  ⟨h.coherent, Nat.le_trans hle h.length_le, h.lt⟩

variable [DecidableEq Ty]

namespace Tables

/-- An entry that is new has the given index. -/
theorem of_mem_emplace {table : List (GenericInstanceKey Ty × Nat)} {key : GenericInstanceKey Ty}
    {idx : Nat} {entry : GenericInstanceKey Ty × Nat} (h : entry ∈ emplace table key idx) :
    entry ∈ table ∨ entry = (key, idx) := by
  rw [emplace] at h
  split_ifs at h
  · exact .inl h
  · exact (List.mem_cons.mp h).symm

theorem nodup_emplace {table : List (GenericInstanceKey Ty × Nat)} (h : (table.map Prod.snd).Nodup)
    (key : GenericInstanceKey Ty) {idx : Nat} (hidx : ∀ entry ∈ table, entry.2 < idx) :
    ((emplace table key idx).map Prod.snd).Nodup := by
  rw [emplace]
  split_ifs
  · exact h
  · refine List.nodup_cons.mpr ⟨fun hmem => ?_, h⟩
    obtain ⟨entry, hentry, heq⟩ := List.mem_map.mp hmem
    have := hidx entry hentry
    omega

end Tables

theorem Coherent.emplace {t : Tables Ty} (h : Coherent t) {key : GenericInstanceKey Ty} {idx : Nat}
    {inst : GenericFunctionInstance Ty} (hinst : t.instances[idx]? = some inst)
    (hcreated : inst.CreatedFor key) (hnew : ∀ entry ∈ t.lookup, entry.2 < idx) :
    Coherent { t with lookup := Tables.emplace t.lookup key idx } where
  lookup entry hentry := by
    rcases Tables.of_mem_emplace hentry with hentry | rfl
    · exact h.lookup entry hentry
    · exact ⟨inst, hinst, hcreated⟩
  lookup_once := Tables.nodup_emplace h.lookup_once key hnew
  needed := h.needed
  exprs := h.exprs
  templateFn := h.templateFn
  templateMethod := h.templateMethod

theorem made_of_cached {t : Tables Ty} (h : Coherent t) {key : GenericInstanceKey Ty}
    {cached : Nat × Tables Ty} (hcached : t.lookupCachedGenericInstance key = some cached) :
    Made t cached := by
  obtain ⟨idx, hidx, rfl⟩ := Option.map_eq_some_iff.mp hcached
  have hlt := h.lookup_lt (mem_of_lookup hidx)
  have hlen : (t.markNeeded idx).instances = t.instances := by
    rw [Tables.markNeeded]
    split_ifs <;> rfl
  exact ⟨h.markNeeded hlt, Nat.le_of_eq (by rw [hlen]), Nat.lt_of_lt_of_eq hlt (by rw [hlen])⟩

/-- The last instance is cached under its key. -/
theorem Coherent.emplace_last {t : Tables Ty} (h : Coherent t) {key : GenericInstanceKey Ty}
    {inst : GenericFunctionInstance Ty} (hcreated : inst.CreatedFor key) :
    Coherent { t with
      instances := t.instances ++ [inst]
      lookup := Tables.emplace t.lookup key t.instances.length } :=
  (h.push inst).emplace List.getElem?_concat_length hcreated fun _ hentry => h.lookup_lt hentry

theorem made_pushInvalid {t : Tables Ty} (h : Coherent t) (key : GenericInstanceKey Ty) :
    Made t (t.pushInvalid key) where
  coherent := h.emplace_last (.inl ⟨rfl, rfl⟩)
  length_le := by
    rw [Tables.pushInvalid, List.length_append]
    exact Nat.le_add_right _ _
  lt := by
    rw [Tables.pushInvalid, List.length_append]
    exact Nat.lt_succ_self _

theorem made_register {t : Tables Ty} (h : Coherent t) (key : GenericInstanceKey Ty)
    (inst : GenericFunctionInstance Ty) (hcreated : inst.CreatedFor key) (suppressed : Bool) :
    Made t (t.registerGenericInstance key inst suppressed) := by
  have hlt : t.instances.length < (t.instances ++ [inst]).length := by
    rw [List.length_append]
    exact Nat.lt_succ_self _
  rw [Tables.registerGenericInstance]
  split_ifs
  · exact ⟨(h.push inst).insertExprs hlt, Nat.le_of_lt hlt, hlt⟩
  · have hmarked := ((h.emplace_last hcreated).insertExprs hlt).markNeeded hlt
    rw [Tables.markNeeded] at hmarked ⊢
    split_ifs at hmarked ⊢
    · exact ⟨hmarked, Nat.le_of_lt hlt, hlt⟩
    · exact ⟨hmarked, Nat.le_of_lt hlt, hlt⟩

variable (containsOpaque) {signature body : Tables Ty → Tables Ty}

theorem made_instantiateGenericFunction (hsignature : Keeps signature) (hbody : Keeps body)
    (modulePath declName : String) (args : List (GenericArgValue Ty))
    (found : Option { decl : FunctionDecl // decl.name = declName }) (boundsOk : Bool)
    {t : Tables Ty} (h : Coherent t) :
    Made t (t.instantiateGenericFunction containsOpaque modulePath declName args found boundsOk
      signature body) := by
  unfold Tables.instantiateGenericFunction
  dsimp only
  split
  · rename_i cached hcached
    split_ifs at hcached
    exact made_of_cached h hcached
  · rcases found with _ | ⟨decl, hdecl⟩
    · exact made_pushInvalid h _
    · dsimp only
      obtain ⟨hcoherent, hle⟩ := hsignature t h
      have hregister := (made_register hcoherent ⟨modulePath, declName, args⟩
        { decl := some decl, modulePath, args }
        (.inr ⟨rfl, rfl, .inl ⟨decl, rfl, hdecl.symm⟩⟩)
        (argsContainOpaque containsOpaque args)).after hle
      split_ifs
      · exact made_pushInvalid h _
      · exact hregister.checkBody hbody
      · exact hregister

theorem made_instantiateGenericMethod (hsignature : Keeps signature) (hbody : Keeps body)
    (typeModule typeName methodName : String) (args : List (GenericArgValue Ty))
    (found : Option { decl : MethodDecl // decl.name = methodName }) {t : Tables Ty}
    (h : Coherent t) :
    t.instantiateGenericMethod containsOpaque typeModule typeName methodName args found
      signature body = (none, t) ∨
    ∃ made, t.instantiateGenericMethod containsOpaque typeModule typeName methodName args found
      signature body = (some made.1, made.2) ∧ Made t made := by
  rcases found with _ | ⟨decl, hdecl⟩
  · exact .inl rfl
  unfold Tables.instantiateGenericMethod
  dsimp only
  split
  · rename_i cached hcached
    split_ifs at hcached
    exact .inr ⟨cached, rfl, made_of_cached h hcached⟩
  · obtain ⟨hcoherent, hle⟩ := hsignature t h
    have hregister := (made_register hcoherent ⟨typeModule, typeName ++ "::" ++ methodName, args⟩
      { implDecl := some decl, modulePath := typeModule, args }
      (.inr ⟨rfl, rfl, .inr ⟨decl, typeName, rfl, hdecl ▸ rfl⟩⟩)
      (argsContainOpaque containsOpaque args)).after hle
    split_ifs
    · exact .inl rfl
    · exact .inr ⟨_, rfl, hregister⟩
    · exact .inr ⟨_, rfl, hregister.checkBody hbody⟩

theorem keeps_checkTemplateFunction (hsignature : Keeps signature) (hbody : Keeps body)
    (modulePath : String) (decl : FunctionDecl) (boundsOk : Bool) :
    Keeps (Tables.checkTemplateFunction containsOpaque modulePath decl boundsOk signature body) := by
  intro t h
  rw [Tables.checkTemplateFunction]
  split_ifs
  · exact ⟨h, Nat.le_refl _⟩
  · have hmade := made_instantiateGenericFunction containsOpaque hsignature keeps_id modulePath
      decl.name (opaqueArgsFor decl.genericParams) (some ⟨decl, rfl⟩) boundsOk
      (h.depth (t.templateCheckDepth + 1))
    obtain ⟨hcoherent, hle⟩ := hbody.checkBody _ _ (hmade.coherent.assignTemplateFn decl hmade.lt)
    exact ⟨hcoherent.depth _, Nat.le_trans hmade.length_le hle⟩

theorem keeps_checkTemplateMethod (hsignature : Keeps signature) (hbody : Keeps body)
    (typeModule typeName methodName : String) (params : List GenericParam)
    (found : Option { decl : MethodDecl // decl.name = methodName }) :
    Keeps (Tables.checkTemplateMethod containsOpaque typeModule typeName methodName params found
      signature body) := by
  intro t h
  rw [Tables.checkTemplateMethod]
  split_ifs
  · exact ⟨h, Nat.le_refl _⟩
  · dsimp only
    rcases made_instantiateGenericMethod containsOpaque hsignature keeps_id typeModule typeName
      methodName (opaqueArgsFor params) found h with hnone | ⟨made, hsome, hmade⟩
    · rw [hnone]
      exact ⟨h, Nat.le_refl _⟩
    · rw [hsome]
      obtain ⟨hcoherent, hle⟩ := hbody.checkBody made.1 _
        (hmade.coherent.recordTemplateMethod hmade.lt)
      rw [Tables.instances_recordTemplateMethod] at hle
      exact ⟨hcoherent, Nat.le_trans hmade.length_le hle⟩

variable {containsOpaque}

mutual

/-- To check code keeps the tables coherent. -/
theorem Work.run_keeps : (w : Work Ty) → Keeps (w.run containsOpaque)
  | .function modulePath declName args found boundsOk signature body, t, h => by
    rw [Work.run]
    have hmade := made_instantiateGenericFunction containsOpaque (runAll_keeps signature)
      (runAll_keeps body) modulePath declName args found boundsOk h
    exact ⟨hmade.coherent, hmade.length_le⟩
  | .method typeModule typeName methodName args found signature body, t, h => by
    rw [Work.run]
    rcases made_instantiateGenericMethod containsOpaque (runAll_keeps signature)
      (runAll_keeps body) typeModule typeName methodName args found h
      with hnone | ⟨made, hsome, hmade⟩
    · rw [hnone]
      exact ⟨h, Nat.le_refl _⟩
    · rw [hsome]
      exact ⟨hmade.coherent, hmade.length_le⟩
  | .templateFunction modulePath decl boundsOk signature body, t, h => by
    rw [Work.run]
    exact keeps_checkTemplateFunction containsOpaque (runAll_keeps signature) (runAll_keeps body)
      modulePath decl boundsOk t h
  | .templateMethod typeModule typeName methodName params found signature body, t, h => by
    rw [Work.run]
    exact keeps_checkTemplateMethod containsOpaque (runAll_keeps signature) (runAll_keeps body)
      typeModule typeName methodName params found t h

theorem runAll_keeps : (ws : List (Work Ty)) → Keeps (runAll containsOpaque ws)
  | [], t, h => by
    rw [runAll]
    exact ⟨h, Nat.le_refl _⟩
  | w :: ws, t, h => by
    rw [runAll]
    obtain ⟨hcoherent, hle⟩ := w.run_keeps t h
    obtain ⟨hcoherent', hle'⟩ := runAll_keeps ws _ hcoherent
    exact ⟨hcoherent', Nat.le_trans hle hle'⟩

end

/-! ## Excluded files -/

/-- A request that finds its instance in the cache, needed already unless this is a template. -/
def Tables.settled (t : Tables Ty) (depth : Nat) (key : GenericInstanceKey Ty) : Bool :=
  match t.lookup.lookup key with
  | none => false
  | some idx => depth ≠ 0 || idx ∈ t.needed

variable (containsOpaque)

mutual

/-- What code asks for has been made before, and nothing is recorded about a method. A request
    with unbound arguments is kept out of the cache, unless it fails. -/
def Work.quiet (t : Tables Ty) : Work Ty → Nat → Bool
  | .function modulePath declName args found _ signature _, depth =>
    if argsContainOpaque containsOpaque args then
      match found with
      | none => false
      | some decl => args.length == decl.1.genericParams.length && quietAll t signature depth
    else t.settled depth ⟨modulePath, declName, args⟩
  | .method typeModule typeName methodName args found signature _, depth =>
    match found with
    | none => true
    | some decl =>
      if argsContainOpaque containsOpaque args then
        args.length != decl.1.implGenericParams.length || quietAll t signature depth
      else
        t.settled depth ⟨typeModule, typeName ++ "::" ++ methodName, args⟩ ||
          ((t.lookup.lookup ⟨typeModule, typeName ++ "::" ++ methodName, args⟩).isNone &&
            args.length != decl.1.implGenericParams.length)
  | .templateFunction _ decl _ signature body, depth =>
    decl.genericParams == [] || (quietAll t signature (depth + 1) && quietAll t body (depth + 1))
  | .templateMethod _ _ _ params found _ _, _ =>
    params == [] || match found with
      | none => true
      | some decl => params.length != decl.1.implGenericParams.length

def quietAll (t : Tables Ty) : List (Work Ty) → Nat → Bool
  | [], _ => true
  | w :: ws, depth => w.quiet t depth && quietAll t ws depth

end

variable {containsOpaque}

/-- Instances are added to the tables, and nothing tells of them but what is dropped with them. -/
structure Within (t : Tables Ty) (depth : Nat) (t' : Tables Ty) : Prop where
  instances : t.instances <+: t'.instances
  lookup : t'.lookup = t.lookup
  needed : t'.needed = t.needed
  templateMethod : t'.templateMethod = t.templateMethod
  depth : t'.templateCheckDepth = depth

namespace Within

variable {t t' : Tables Ty} {depth : Nat}

theorem register (h : Within t depth t') (key : GenericInstanceKey Ty)
    (inst : GenericFunctionInstance Ty) :
    Within t depth (t'.registerGenericInstance key inst true).2 :=
  ⟨h.instances.trans (List.prefix_append _ _), h.lookup, h.needed, h.templateMethod, h.depth⟩

omit [DecidableEq Ty] in
theorem setChecked (h : Within t depth t') {idx : Nat} (hidx : t.instances.length ≤ idx)
    (inst : GenericFunctionInstance Ty) :
    Within t depth { t' with instances := t'.instances.set idx inst } := by
  refine ⟨?_, h.lookup, h.needed, h.templateMethod, h.depth⟩
  obtain ⟨added, hadded⟩ := h.instances
  rw [← hadded, List.set_append_right _ _ hidx]
  exact List.prefix_append _ _

omit [DecidableEq Ty] in
theorem checkBody (h : Within t depth t') {idx : Nat} (hidx : t.instances.length ≤ idx)
    {body : Tables Ty → Tables Ty} (hbody : ∀ t', Within t depth t' → Within t depth (body t')) :
    Within t depth (t'.checkGenericFunctionInstanceBody idx body) := by
  rw [Tables.checkGenericFunctionInstanceBody]
  split
  · exact h
  · split_ifs
    · exact h
    · exact h.setChecked hidx _
    · have hset := h.setChecked hidx
      exact hbody _ ⟨(hset _).instances, h.lookup, h.needed, h.templateMethod, h.depth⟩

theorem of_settled (h : Within t depth t') {key : GenericInstanceKey Ty}
    (hsettled : t.settled depth key = true) :
    ∃ cached, t'.lookupCachedGenericInstance key = some cached ∧ Within t depth cached.2 := by
  rw [Tables.settled] at hsettled
  split at hsettled
  · cases hsettled
  · rename_i idx hidx
    refine ⟨(idx, t'.markNeeded idx), ?_, ?_⟩
    · rw [Tables.lookupCachedGenericInstance, h.lookup, hidx]
      rfl
    · rw [Tables.markNeeded, h.depth]
      split_ifs with hdepth
      · have hmem : idx ∈ t.needed := by simpa [hdepth] using hsettled
        refine ⟨h.instances, h.lookup, ?_, h.templateMethod, rfl⟩
        rw [h.needed]
        exact List.insert_of_mem hmem
      · exact h

omit [DecidableEq Ty] in
theorem assignTemplateFn (h : Within t depth t') (decl : FunctionDecl) (idx : Nat) :
    Within t depth { t' with templateFn := Tables.assign t'.templateFn decl idx } :=
  ⟨h.instances, h.lookup, h.needed, h.templateMethod, h.depth⟩

omit [DecidableEq Ty] in
theorem deeper (h : Within t depth t') :
    Within t (depth + 1) { t' with templateCheckDepth := t'.templateCheckDepth + 1 } :=
  ⟨h.instances, h.lookup, h.needed, h.templateMethod, congrArg (· + 1) h.depth⟩

omit [DecidableEq Ty] in
theorem shallower (h : Within t (depth + 1) t') :
    Within t depth { t' with templateCheckDepth := t'.templateCheckDepth - 1 } :=
  ⟨h.instances, h.lookup, h.needed, h.templateMethod, congrArg (· - 1) h.depth⟩

end Within

variable {t : Tables Ty}

/-- A request with unbound arguments that does not fail. -/
theorem instantiateGenericFunction_unresolved {modulePath declName : String}
    {args : List (GenericArgValue Ty)} (hargs : argsContainOpaque containsOpaque args = true)
    (decl : { decl : FunctionDecl // decl.name = declName })
    (hlength : args.length = decl.1.genericParams.length) (boundsOk : Bool)
    (signature body : Tables Ty → Tables Ty) (t' : Tables Ty) :
    t'.instantiateGenericFunction containsOpaque modulePath declName args (some decl) boundsOk
      signature body = (signature t').registerGenericInstance ⟨modulePath, declName, args⟩
        { decl := some decl.1, modulePath, args } true := by
  simp only [Tables.instantiateGenericFunction, hargs, if_true, ne_eq, hlength, not_true,
    if_false, Bool.not_true, Bool.false_and, Bool.false_eq_true]

mutual

/-- Quiet code leaves what tells of instances as it is. -/
theorem Work.run_within : (w : Work Ty) → {depth : Nat} → {t' : Tables Ty} →
    w.quiet containsOpaque t depth = true → Within t depth t' →
    Within t depth (w.run containsOpaque t')
  | .function modulePath declName args found boundsOk signature body, depth, t', hquiet, h => by
    rw [Work.run]
    rw [Work.quiet.eq_def] at hquiet
    dsimp only at hquiet
    split at hquiet
    · rename_i hargs
      rcases found with _ | decl
      · cases hquiet
      · obtain ⟨hlength, hsignature⟩ := Bool.and_eq_true_iff.mp hquiet
        rw [instantiateGenericFunction_unresolved hargs decl (by simpa using hlength)]
        exact (runAll_within signature hsignature h).register _ _
    · rename_i hargs
      obtain ⟨cached, hcached, hwithin⟩ := h.of_settled hquiet
      rw [Tables.instantiateGenericFunction.eq_def]
      simp only [hargs, if_false, Bool.false_eq_true, hcached]
      exact hwithin
  | .method typeModule typeName methodName args found signature body, depth, t', hquiet, h => by
    rw [Work.run]
    rw [Work.quiet.eq_def] at hquiet
    rcases found with _ | decl
    · exact h
    · dsimp only at hquiet
      rw [Tables.instantiateGenericMethod.eq_def]
      dsimp only
      split at hquiet
      · rename_i hargs
        simp only [hargs, if_true]
        split
        · exact h
        · rename_i hlength
          refine (runAll_within signature ?_ h).register
            ⟨typeModule, typeName ++ "::" ++ methodName, args⟩ _
          simpa [not_not.mp hlength] using hquiet
      · rename_i hargs
        simp only [hargs, if_false, Bool.false_eq_true]
        rcases Bool.or_eq_true_iff.mp hquiet with hsettled | hmiss
        · obtain ⟨cached, hcached, hwithin⟩ := h.of_settled hsettled
          rw [hcached]
          exact hwithin
        · obtain ⟨hnone, hlength⟩ := Bool.and_eq_true_iff.mp hmiss
          rw [Tables.lookupCachedGenericInstance, h.lookup, Option.isNone_iff_eq_none.mp hnone]
          rw [Option.map_none]
          dsimp only
          rw [if_pos (by simpa using hlength)]
          exact h
  | .templateFunction modulePath decl boundsOk signature body, depth, t', hquiet, h => by
    rw [Work.run, Tables.checkTemplateFunction]
    rw [Work.quiet.eq_def] at hquiet
    dsimp only at hquiet
    split_ifs with hparams
    · exact h
    · have hquiet : quietAll containsOpaque t signature (depth + 1) = true ∧
          quietAll containsOpaque t body (depth + 1) = true := by simpa [hparams] using hquiet
      dsimp only
      rw [instantiateGenericFunction_unresolved
        (argsContainOpaque_opaqueArgsFor containsOpaque hparams) ⟨decl, rfl⟩
        (length_opaqueArgsFor decl.genericParams)]
      have hsignature := runAll_within signature hquiet.1 h.deeper
      refine (Within.checkBody ?_ ?_ fun _ hwithin => runAll_within body hquiet.2 hwithin).shallower
      · exact (hsignature.register _ _).assignTemplateFn decl _
      · exact hsignature.instances.length_le
  | .templateMethod typeModule typeName methodName params found signature body, depth, t', hquiet,
      h => by
    rw [Work.run, Tables.checkTemplateMethod]
    rw [Work.quiet.eq_def] at hquiet
    dsimp only at hquiet
    split_ifs with hparams
    · exact h
    · rcases found with _ | decl
      · exact h
      · have hlength : (opaqueArgsFor params : List (GenericArgValue Ty)).length ≠
            decl.1.implGenericParams.length := by
          rw [length_opaqueArgsFor]
          simpa [hparams] using hquiet
        simp only [Tables.instantiateGenericMethod,
          argsContainOpaque_opaqueArgsFor containsOpaque hparams, if_true, if_pos hlength]
        exact h

theorem runAll_within : (ws : List (Work Ty)) → {depth : Nat} → {t' : Tables Ty} →
    quietAll containsOpaque t ws depth = true → Within t depth t' →
    Within t depth (runAll containsOpaque ws t')
  | [], depth, t', hquiet, h => by
    rw [runAll]
    exact h
  | w :: ws, depth, t', hquiet, h => by
    rw [quietAll, Bool.and_eq_true] at hquiet
    rw [runAll]
    exact runAll_within ws hquiet.2 (w.run_within hquiet.1 h)

end

/-- A quiet file leaves the tables coherent, and the instances, the cache and the needed instances
    as they were. -/
theorem checkOneExcludedFile_of_quiet (h : Coherent t) {file : List (Work Ty)}
    (hquiet : quietAll containsOpaque t file t.templateCheckDepth = true) :
    Coherent (checkOneExcludedFile containsOpaque file t) ∧
      (checkOneExcludedFile containsOpaque file t).instances = t.instances ∧
      (checkOneExcludedFile containsOpaque file t).lookup = t.lookup ∧
      (checkOneExcludedFile containsOpaque file t).needed = t.needed := by
  obtain ⟨hcoherent, -⟩ := @runAll_keeps _ containsOpaque _ file t h
  have hwithin := runAll_within file hquiet ⟨List.prefix_rfl, rfl, rfl, rfl, rfl⟩
  have hneeded : t.needed.filter (· < t.instances.length) = t.needed :=
    List.filter_eq_self.mpr fun idx hidx => decide_eq_true (h.needed idx hidx)
  have htake := List.prefix_iff_eq_take.mp hwithin.instances
  rw [checkOneExcludedFile]
  split_ifs with hlength
  · refine ⟨?_, htake.symm, hwithin.lookup, hwithin.needed ▸ hneeded⟩
    rw [hwithin.lookup, hwithin.needed, hwithin.templateMethod, hneeded, ← htake]
    exact ⟨h.lookup, h.lookup_once, h.needed,
      fun idx hidx => of_decide_eq_true (List.mem_filter.mp hidx).2,
      fun entry hentry => of_decide_eq_true (List.mem_filter.mp hentry).2, h.templateMethod⟩
  · refine ⟨hcoherent, ?_, hwithin.lookup, hwithin.needed⟩
    exact (hwithin.instances.eq_of_length_le (Nat.le_of_not_lt hlength)).symm

/-! ## Runs -/

variable (containsOpaque)

/-- The condition on a pass: an excluded file is quiet. -/
def Pass.quiet (t : Tables Ty) : Pass Ty → Bool
  | .check _ => true
  | .excluded file => quietAll containsOpaque t file t.templateCheckDepth

/-- A generic function with one type parameter. -/
def makeList : FunctionDecl := ⟨"make_list", "list.mir", [⟨true, none⟩]⟩

/-- A call of it with a type of the program. -/
def callMakeList : Work String :=
  .function "list" "make_list" [.type "i32"] (some ⟨makeList, rfl⟩) true [] []

end Mirage.Lang.Generic
