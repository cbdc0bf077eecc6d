import Mirage.Lang.TypeFinite

/-!
# Type resolution ends with a finite type

What each part of the resolver gives as long as nothing is reported, and from it the theorem
about whole runs: where error types name their members directly, resolution returns with finite
types or with a report exactly when it comes to finitely many instances of generic types and
levels of enums.
-/

namespace Mirage.Types

open Calls Stateful

section

variable {P : Program} {ctx : Context} {p : State → Prop}

theorem real_allowed : Real P (ctx.allowed P) := by
  intro σ a h ha
  cases a with
  | struct i | union i =>
    obtain ⟨x, hx, _⟩ := ha
    exact (h.declared x _ hx).2 _ rfl

section

variable (hs : Stable (ctx.allowed P) p) (hok : ∀ σ, p σ → ctx.Ok σ)
include hs hok

/-! ## Constant expressions -/

omit hs in
theorem meets_full {x : Name} :
    Meets P (ctx.allowed P) p (ask (ctx.plain, .full x)) (Result P (.full x)) :=
  have hx : Job.ErrorsDirect P (.full x) := trivial
  meets_ask hx fun σ h => (hok σ h).plain

omit hs in
theorem meets_type {e : TypeExpr} (he : e.ErrorsDirect P) :
    Meets P (ctx.allowed P) p (ask (ctx, .type e)) (Result P (.type e)) :=
  have he : Job.ErrorsDirect P (.type e) := he
  meets_ask he hok

omit hs in
theorem meets_field {e : TypeExpr} (he : e.ErrorsDirect P) :
    Meets P (ctx.allowed P) p (ask (ctx, .field e)) (Result P (.field e)) :=
  have he : Job.ErrorsDirect P (.field e) := he
  meets_ask he hok

omit hs in
theorem meets_sizeOperand {x : Name} :
    Meets P (ctx.allowed P) p (sizeOperand P ctx x) fun _ _ => True := by
  rw [sizeOperand]
  split
  · exact (meets_full hok).post fun _ _ _ _ => trivial
  · exact meets_fail

theorem meets_evalIntegerConstExpr {e : ValueExpr} {iota : Nat} :
    Meets P (ctx.allowed P) p (evalIntegerConstExpr P ctx iota e) fun _ _ => True := by
  induction e generalizing iota with
  | literal | name | iota | other => exact meets_pure fun _ _ _ => trivial
  | sizeOf x | alignOf x =>
    exact (meets_sizeOperand hok).bind fun _ => meets_get.bind fun _ =>
      meets_pure fun _ _ _ => trivial
  | add a b iha ihb | mul a b iha ihb =>
    refine iha.andThen hs fun _ => (ihb.pre fun _ _ h => h.1).bind fun _ => ?_
    exact meets_pure fun _ _ _ => trivial

theorem meets_arrayLenExprValue {e : ValueExpr} :
    Meets P (ctx.allowed P) p (arrayLenExprValue P ctx e) fun _ _ => True :=
  (meets_evalIntegerConstExpr hs hok).bind fun _ => meets_reportIf.bind fun _ =>
    meets_pure fun _ _ _ => trivial

/-! ## Layouts -/

omit hs in
theorem meets_memberType {x : Name} {e : TypeExpr} (he : e.ErrorsDirect P) :
    Meets P (ctx.allowed P) p (memberType ctx x e) fun t σ => σ.Complete t := by
  refine (meets_field hok he).bind fun t => meets_get.bind fun σ => ?_
  refine meets_ite (fun _ => meets_fail) fun h => meets_pure ?_
  rintro _ _ ⟨rfl, ht⟩
  exact complete_of_not_isIncomplete ht.1 (Bool.eq_false_iff.2 h)

theorem meets_layoutFields {isPacked : Bool} {fields : List (Name × TypeExpr)}
    {l : FieldsLayout} (hl : ∀ σ, p σ → ∀ f ∈ l.fields, σ.Complete f.type)
    (he : ∀ x e, (x, e) ∈ fields → e.ErrorsDirect P) :
    Meets P (ctx.allowed P) p (layoutFields P ctx isPacked l fields)
      fun l σ => ∀ f ∈ l.fields, σ.Complete f.type := by
  induction fields generalizing l p with
  | nil => exact meets_pure fun σ _ h => hl σ h
  | cons field fields ih =>
    obtain ⟨x, e⟩ := field
    refine (meets_memberType hok (he x e List.mem_cons_self)).andThen hs fun t => ?_
    refine meets_get.bind fun σ => Meets.pre (p := fun σ => p σ ∧ σ.Complete t) ?_
      fun _ _ h => h.2
    refine ih (hs.and stable_complete) (fun σ h => hok σ h.1) (fun σ h f hf => ?_)
      fun x e h => he x e (List.mem_cons_of_mem _ h)
    obtain hf | hf := List.mem_append.1 hf
    · exact hl σ h.1 f hf
    · obtain rfl := List.mem_singleton.1 hf
      exact h.2

theorem meets_layoutStruct {i : Nat} {isPacked : Bool} {fields : List (Name × TypeExpr)}
    (hi : ∀ σ, p σ → Pending (ctx.allowed P) (.struct i) σ)
    (he : ∀ x e, (x, e) ∈ fields → e.ErrorsDirect P) :
    Meets P (fun a => ctx.allowed P a ∨ a = .struct i) p (layoutStruct P ctx i isPacked fields)
      fun _ σ => σ.Done (.struct i) := by
  refine Meets.bind (((meets_layoutFields hs hok ?_ he).keep hs).weaken fun _ => .inl) fun l => ?_
  · exact fun _ _ f hf => absurd hf List.not_mem_nil
  · refine meets_setStruct rfl fun σ h => ⟨hi σ h.1, fun t ht => ?_⟩
    obtain ⟨f, hf, rfl⟩ := List.mem_map.1 ht
    exact h.2 f hf

theorem meets_layoutMembers {members : List (Name × TypeExpr)} {l : MembersLayout}
    (hl : ∀ σ, p σ → ∀ m ∈ l.members, σ.Complete m.2)
    (he : ∀ x e, (x, e) ∈ members → e.ErrorsDirect P) :
    Meets P (ctx.allowed P) p (layoutMembers P ctx l members)
      fun l σ => ∀ m ∈ l.members, σ.Complete m.2 := by
  induction members generalizing l p with
  | nil => exact meets_pure fun σ _ h => hl σ h
  | cons member members ih =>
    obtain ⟨x, e⟩ := member
    refine (meets_memberType hok (he x e List.mem_cons_self)).andThen hs fun t => ?_
    refine meets_get.bind fun σ => Meets.pre (p := fun σ => p σ ∧ σ.Complete t) ?_
      fun _ _ h => h.2
    refine ih (hs.and stable_complete) (fun σ h => hok σ h.1) (fun σ h m hm => ?_)
      fun x e h => he x e (List.mem_cons_of_mem _ h)
    obtain hm | hm := List.mem_append.1 hm
    · exact hl σ h.1 m hm
    · obtain rfl := List.mem_singleton.1 hm
      exact h.2

theorem meets_layoutUnion {i : Nat} {members : List (Name × TypeExpr)}
    (hi : ∀ σ, p σ → Pending (ctx.allowed P) (.union i) σ)
    (he : ∀ x e, (x, e) ∈ members → e.ErrorsDirect P) :
    Meets P (fun a => ctx.allowed P a ∨ a = .union i) p (layoutUnion P ctx i members)
      fun _ σ => σ.Done (.union i) := by
  refine Meets.bind (((meets_layoutMembers hs hok ?_ he).keep hs).weaken fun _ => .inl) fun l => ?_
  · exact fun _ _ f hf => absurd hf List.not_mem_nil
  · refine meets_setUnion fun σ h => ⟨hi σ h.1, rfl, fun t ht => ?_, fun t ht => nomatch ht⟩
    simp only [UnionInfo.contents, List.filterMap_nil, List.append_nil] at ht
    obtain ⟨m, hm, rfl⟩ := List.mem_map.1 ht
    exact h.2 m hm

omit hs in
theorem meets_resolveTypeOr {k : Builtin} {e : Option TypeExpr}
    (he : ∀ e', e = some e' → e'.ErrorsDirect P) :
    Meets P (ctx.allowed P) p (resolveTypeOr ctx k e) fun _ _ => True := by
  cases e with
  | none => exact meets_pure fun _ _ _ => trivial
  | some e => exact (meets_type hok (he e rfl)).post fun _ _ _ _ => trivial

theorem meets_enumFieldValue {iota : Nat} {pattern : Option ValueExpr} {x : Name}
    {init : Option ValueExpr} :
    Meets P (ctx.allowed P) p (enumFieldValue P ctx iota pattern x init) fun _ _ => True := by
  rw [enumFieldValue.eq_def]
  split
  · exact (meets_evalIntegerConstExpr hs hok).bind fun _ => meets_reportIf.bind fun _ =>
      meets_pure fun _ _ _ => trivial
  · split
    · exact (meets_evalIntegerConstExpr hs hok).bind fun _ => meets_pure fun _ _ _ => trivial
    · exact meets_pure fun _ _ _ => trivial

theorem meets_layoutEnumFields {fields : List (Name × Option ValueExpr)} {iota : Nat}
    {pattern : Option ValueExpr} {done : List (Name × Int)} :
    Meets P (ctx.allowed P) p (layoutEnumFields P ctx iota pattern done fields)
      fun _ _ => True := by
  induction fields generalizing iota pattern done with
  | nil => exact meets_pure fun _ _ _ => trivial
  | cons field fields ih =>
    refine (meets_enumFieldValue hs hok).andThen hs fun _ => ?_
    exact (meets_reportIf.andThen (hs.and stable_const) fun _ => ih.pre fun _ _ h => h.1.1)

theorem meets_layoutEnum {i : Nat} {underlying : Option TypeExpr}
    {fields : List (Name × Option ValueExpr)}
    (he : ∀ e, underlying = some e → e.ErrorsDirect P) :
    Meets P (ctx.allowed P) p (layoutEnum P ctx i underlying fields) fun _ _ => True := by
  refine (meets_resolveTypeOr hok he).andThen hs fun t => ?_
  exact ((meets_layoutEnumFields hs hok).pre fun _ _ h => h.1).bind fun _ => meets_setEnum

omit hs hok in
theorem meets_checkBitsetVariants {A : Slot → Prop} {bits : Nat} {fields : List (Name × Int)} :
    Meets P A p (checkBitsetVariants bits fields) fun _ _ => True := by
  induction fields generalizing p with
  | nil => exact meets_pure fun _ _ _ => trivial
  | cons field fields ih => exact meets_reportIf.bind fun _ => ih

theorem meets_layoutBitset {i : Nat} {member : Name} {storage : Option TypeExpr}
    (he : ∀ e, storage = some e → e.ErrorsDirect P) :
    Meets P (ctx.allowed P) p (layoutBitset P ctx i member storage) fun _ _ => True := by
  refine (meets_full hok).andThen hs fun t => ?_
  split
  · refine Meets.bind (meets_resolveTypeOr (fun σ h => hok σ h.1) he) fun s => ?_
    exact meets_reportIf.bind fun _ => meets_get.bind fun _ =>
      meets_checkBitsetVariants.bind fun _ => meets_setBitset
  · exact Meets.bind (q := fun _ _ => True) meets_report fun _ => meets_setBitset

omit hs hok in
/-- The struct of a payload is laid out. -/
theorem meets_wrapPayloadInStruct {A : Slot → Prop} (hA : Real P A) (hs : Stable A p)
    {t : ResolvedType} (ht : ∀ σ, p σ → σ.Complete t) :
    Meets P A p (wrapPayloadInStruct P t) fun i σ => σ.Done (.struct i) := by
  rw [wrapPayloadInStruct.eq_def]
  split
  · exact meets_pure fun σ _ h => (ht σ h).2 _ rfl
  · refine meets_newStruct hA hs fun i => meets_get.bind fun σ => ?_
    refine Meets.bind (meets_setStruct rfl fun τ h => ⟨h.2.2, ?_⟩) fun _ =>
      meets_pure fun _ _ h => h
    intro t' ht'
    obtain rfl := List.mem_singleton.1 ht'
    exact ht τ h.2.1

/-- The structs of the payloads of the variants are laid out. -/
def PayloadsDone (l : VariantsLayout) (σ : State) : Prop :=
  ∀ v ∈ l.variants, ∀ t i, v.payload = some (t, i) → σ.Done (.struct i)

omit hs hok in
theorem PayloadsDone.add {l : VariantsLayout} {σ τ : State} {x : Name} {t : ResolvedType} {i : Nat}
    (h : PayloadsDone l σ) (hi : σ.Done (.struct i)) : PayloadsDone (l.add τ x t i) σ := by
  intro v hv t' i' hv'
  obtain hv | hv := List.mem_append.1 hv
  · exact h v hv t' i' hv'
  · obtain rfl := List.mem_singleton.1 hv
    cases hv'
    exact hi

omit hs hok in
theorem PayloadsDone.contents {l : VariantsLayout} {σ : State} (h : PayloadsDone l σ)
    {u : UnionInfo} (hmembers : u.members = []) (hvariants : u.variants = l.variants) :
    ∀ t ∈ u.contents, σ.Complete t := by
  intro t ht
  rw [UnionInfo.contents, hmembers, hvariants, List.map_nil, List.nil_append] at ht
  obtain ⟨v, hv, hp⟩ := List.mem_filterMap.1 ht
  obtain ⟨⟨t', i⟩, hv', rfl⟩ := Option.map_eq_some_iff.1 hp
  refine ⟨trivial, fun a ha => ?_⟩
  cases ha
  exact h v hv t' i hv'

theorem meets_payload {x : Name} {e : TypeExpr} (he : e.ErrorsDirect P) :
    Meets P (ctx.allowed P) p (payload P ctx x e) fun r σ => σ.Done (.struct r.2) := by
  rw [payload.eq_def]
  split
  · refine meets_newStruct real_allowed hs fun i => Meets.bind ?_ fun _ =>
      meets_pure fun _ _ h => h
    exact meets_layoutStruct (hs.and stable_pending) (fun σ h => hok σ h.1) (fun σ h => h.2)
      fun x e h => he.child (.field h)
  · refine (meets_memberType hok he).andThen hs fun t => ?_
    exact (meets_wrapPayloadInStruct real_allowed (hs.and stable_complete) fun σ h => h.2).bind
      fun i => meets_pure fun _ _ h => h

theorem meets_layoutVariants {members : List (Name × Option TypeExpr)} {l : VariantsLayout}
    (hl : ∀ σ, p σ → PayloadsDone l σ)
    (he : ∀ x e, (x, some e) ∈ members → e.ErrorsDirect P) :
    Meets P (ctx.allowed P) p (layoutVariants P ctx l members) PayloadsDone := by
  induction members generalizing l p with
  | nil => exact meets_pure fun σ _ h => hl σ h
  | cons member members ih =>
    have ihe : ∀ x e, (x, some e) ∈ members → e.ErrorsDirect P :=
      fun x e h => he x e (List.mem_cons_of_mem _ h)
    obtain ⟨x, _ | e⟩ := member
    · refine ih hs hok (fun σ h v hv t i hv' => ?_) ihe
      obtain hv | hv := List.mem_append.1 hv
      · exact hl σ h v hv t i hv'
      · obtain rfl := List.mem_singleton.1 hv
        cases hv'
    · refine (meets_payload hs hok (he x e List.mem_cons_self)).andThen hs fun r => ?_
      refine meets_get.bind fun τ => Meets.pre (p := fun σ => p σ ∧ σ.Done (.struct r.2)) ?_
        fun _ _ h => h.2
      exact ih (hs.and stable_done) (fun σ h => hok σ h.1) (fun σ h => (hl σ h.1).add h.2) ihe

theorem meets_layoutTaggedUnion {i : Nat} {members : List (Name × Option TypeExpr)}
    (hi : ∀ σ, p σ → Pending (ctx.allowed P) (.union i) σ)
    (he : ∀ x e, (x, some e) ∈ members → e.ErrorsDirect P) :
    Meets P (fun a => ctx.allowed P a ∨ a = .union i) p (layoutTaggedUnion P ctx i members)
      fun _ σ => σ.Done (.union i) := by
  refine Meets.bind (((meets_layoutVariants hs hok ?_ he).keep hs).weaken fun _ => .inl) fun l => ?_
  · exact fun _ _ v hv => absurd hv List.not_mem_nil
  · exact meets_setUnion fun σ h =>
      ⟨hi σ h.1, rfl, h.2.contents rfl rfl, fun t ht => nomatch ht⟩

/-! ## Error types -/

omit hs hok in
theorem lookup_concat {α β : Type} [BEq α] [LawfulBEq α] {l : List (α × β)} {a k : α} {b c : β}
    (h : (l ++ [(a, b)]).lookup k = some c) : l.lookup k = some c ∨ k = a ∧ b = c := by
  rw [List.lookup_append, Option.or_eq_some_iff] at h
  obtain h | ⟨_, h⟩ := h
  · exact .inl h
  · obtain h := mem_of_lookup h
    cases List.mem_singleton.1 h
    exact .inr ⟨rfl, rfl⟩

omit hs hok in
theorem meets_errorVariants {A : Slot → Prop} (hA : Real P A) (hs : Stable A p)
    {members : List ResolvedType} {l : VariantsLayout} (hl : ∀ σ, p σ → PayloadsDone l σ)
    (hm : ∀ σ, p σ → ∀ t ∈ members, σ.Complete t) :
    Meets P A p (errorVariants P l members) PayloadsDone := by
  induction members generalizing l p with
  | nil => exact meets_pure fun σ _ h => hl σ h
  | cons t members ih =>
    refine (meets_wrapPayloadInStruct hA hs fun σ h => hm σ h t List.mem_cons_self).andThen hs
      fun i => meets_get.bind fun τ => Meets.pre (p := fun σ => p σ ∧ σ.Done (.struct i)) ?_
        fun _ _ h => h.2
    exact ih (hs.and stable_done) (fun σ h => (hl σ h.1).add h.2)
      fun σ h t ht => hm σ h.1 t (List.mem_cons_of_mem _ ht)

omit hs hok in
theorem complete_union {σ : State} {i : Nat} (h : σ.Done (.union i)) : σ.Complete (.union i) := by
  refine ⟨trivial, fun a ha => ?_⟩
  cases ha
  exact h

omit hs hok in
theorem meets_failedPayload {A : Slot → Prop} (hA : Real P A) (hs : Stable A p)
    {members : List ResolvedType} (hm : ∀ σ, p σ → ∀ t ∈ members, σ.Complete t) :
    Meets P A p (failedPayload P members) fun t σ => σ.Complete t := by
  rw [failedPayload.eq_def]
  split
  · exact meets_pure fun σ _ h => hm σ h _ List.mem_cons_self
  · refine Meets.andThen (meets_errorVariants hA hs (fun _ _ v hv => absurd hv List.not_mem_nil) hm)
      hs fun l => ?_
    refine Meets.bind (meets_newUnion_done rfl fun σ h => ⟨h.2.contents rfl rfl, ?_⟩) fun i =>
      meets_pure fun _ _ h => complete_union h
    exact hm σ h.1

omit hs hok in
theorem meets_synthesizeErrorUnion {A : Slot → Prop} (hA : Real P A) (hs : Stable A p)
    {members : List ResolvedType} {isOptional : Bool}
    (hm : ∀ σ, p σ → ∀ t ∈ members, σ.Complete t) :
    Meets P A p (synthesizeErrorUnion P members isOptional) fun u σ =>
      u.layoutDone = true ∧ (∀ t ∈ u.contents, σ.Complete t) ∧
        ∀ t ∈ u.errorMemberTypes, σ.Complete t := by
  refine (meets_failedPayload hA hs hm).andThen hs fun failed => ?_
  refine (meets_wrapPayloadInStruct hA (hs.and stable_complete) fun σ h => h.2).andThen
    (hs.and stable_complete) fun i => meets_get.bind fun τ => meets_pure ?_
  rintro σ _ ⟨_, ⟨hp, _⟩, hi⟩
  have hl : PayloadsDone ⟨[⟨"Ok", none⟩, ⟨"Failed", some (failed, i)⟩], 0, 1⟩ σ := by
    intro v hv t j hv'
    obtain rfl | hv := List.mem_cons.1 hv
    · cases hv'
    · obtain rfl := List.mem_singleton.1 hv
      cases hv'
      exact hi
  exact ⟨rfl, hl.contents rfl rfl, hm σ hp⟩

omit hs hok in
theorem meets_internErrorUnion {A : Slot → Prop} (hA : Real P A) (hs : Stable A p)
    {members : List ResolvedType} {isOptional : Bool}
    (hm : ∀ σ, p σ → ∀ t ∈ members, σ.Complete t) :
    Meets P A p (internErrorUnion P members isOptional) fun t σ =>
      ∃ i, t = .union i ∧ σ.Done (.union i) := by
  refine meets_reportIf.andThen hs fun _ => meets_get.bind fun τ => ?_
  split
  · refine meets_pure ?_
    rintro σ h ⟨rfl, _⟩
    exact ⟨_, rfl, h.errors _ _ ‹_›⟩
  · refine Meets.pre (p := p) ?_ fun _ _ h => h.2.1
    have hm' : ∀ σ, p σ → ∀ t ∈ (members.insertionSort errorMemberLE).dedup, σ.Complete t :=
      fun σ h t ht => hm σ h t ((List.mem_insertionSort _).1 (List.mem_dedup.1 ht))
    refine meets_newUnion hA hs fun i => ?_
    refine Meets.bind (((meets_synthesizeErrorUnion hA (hs.and stable_pending) fun σ h =>
      hm' σ h.1).keep (hs.and stable_pending)).weaken fun _ => .inl) fun info => ?_
    refine (meets_setUnion fun σ h => ⟨h.1.2, h.2⟩).bind fun _ => ?_
    refine Meets.bind (meets_modify (fun _ => rfl) fun σ hd h hσ => ⟨?_, .of_eq hd rfl rfl, hσ⟩)
      fun _ => meets_pure fun σ _ h => ⟨i, rfl, h⟩
    refine ⟨h.contents, h.empty, h.acc, h.members, fun k j hk => ?_, h.aliases, h.instances,
      h.declared⟩
    obtain hk | ⟨_, hk⟩ := lookup_concat hk
    · exact h.errors k j hk
    · exact hk ▸ hσ

omit hs hok in
theorem complete_of_valid {σ : State} {t : ResolvedType} (hv : isValidErrorMember σ t = true)
    (ht : ∀ i, t = .union i → σ.Done (.union i)) : σ.Complete t := by
  cases t with
  | enum i => exact ⟨trivial, fun a ha => nomatch ha⟩
  | union i => exact complete_union (ht i rfl)
  | _ => cases hv

theorem meets_errorMembers {members : List Name} (he : ∀ x ∈ members, P.Direct x) :
    Meets P (ctx.allowed P) p (errorMembers ctx members)
      fun ts σ => ∀ t ∈ ts, σ.Complete t := by
  induction members generalizing p with
  | nil => exact meets_pure fun _ _ _ t ht => absurd ht List.not_mem_nil
  | cons x members ih =>
    refine (meets_full hok).andThen hs fun t => meets_get.bind fun τ => ?_
    refine Meets.bind (q := fun _ σ => p σ ∧ σ.Complete t) ?_ fun _ => ?_
    · refine meets_ite (fun _ => meets_report) fun h => meets_pure ?_
      rintro σ _ ⟨rfl, hp, ht⟩
      exact ⟨hp, complete_of_valid (Bool.not_eq_false _ ▸ h) (ht.2 (he x List.mem_cons_self))⟩
    · refine (ih (hs.and stable_complete) (fun σ h => hok σ h.1) fun x hx =>
        he x (List.mem_cons_of_mem _ hx)).andThen (hs.and stable_complete) fun ts => meets_pure ?_
      rintro σ _ ⟨⟨_, ht⟩, hts⟩ t' ht'
      obtain rfl | ht' := List.mem_cons.1 ht'
      · exact ht
      · exact hts t' ht'

theorem meets_resolveErrorType {members : List Name} (he : ∀ x ∈ members, P.Direct x) :
    Meets P (ctx.allowed P) p (resolveErrorType P ctx members) fun t σ =>
      ∃ i, t = .union i ∧ σ.Done (.union i) := by
  refine (meets_errorMembers hs hok he).bind fun ts => ?_
  refine meets_internErrorUnion real_allowed ?_ fun σ h => h
  exact stable_forall fun t => stable_imp stable_complete

omit hs hok in
theorem meets_internErrorUnion_single {A : Slot → Prop} (hA : Real P A) {t : ResolvedType}
    {isOptional : Bool} (h : ∀ σ, p σ → σ.Complete t) :
    Meets P A p (internErrorUnion P [t] isOptional) fun t σ =>
      ∃ i, t = .union i ∧ σ.Done (.union i) := by
  refine (meets_internErrorUnion hA stable_complete fun σ ht t' ht' => ?_).pre fun σ _ => h σ
  obtain rfl := List.mem_singleton.1 ht'
  exact ht

omit hs hok in
theorem meets_makeOptional {A : Slot → Prop} (hA : Real P A) {τ : State} {t : ResolvedType} :
    Meets P A (fun σ => τ = σ ∧ σ.Known t ∧ ∀ i, t = .union i → σ.Done (.union i))
      (makeOptional P τ t) fun t σ => ∃ i, t = .union i ∧ σ.Done (.union i) := by
  rw [makeOptional.eq_def]
  split
  · exact meets_pure fun _ _ h => h.2.1.1.elim
  · split
    · refine meets_ite (fun _ => meets_ite (fun _ => ?_) fun _ => ?_) fun _ =>
        meets_ite (fun _ => ?_) fun _ => meets_fail
      · exact meets_pure fun _ _ h => ⟨_, rfl, h.2.2 _ rfl⟩
      · refine (meets_internErrorUnion hA (stable_forall fun t => stable_imp stable_complete)
          fun σ h => h).pre ?_
        rintro σ h ⟨rfl, _⟩
        exact h.members _ _ ‹_›
      · exact meets_internErrorUnion_single hA fun σ h => complete_union (h.2.2 _ rfl)
    · exact meets_fail
  · refine meets_ite (fun hv => meets_internErrorUnion_single hA ?_) fun _ => meets_fail
    rintro σ ⟨rfl, h⟩
    exact complete_of_valid hv h.2

omit hs in
theorem meets_resolveOptionalErrorType {inner : TypeExpr}
    (he : (TypeExpr.optionalError inner).ErrorsDirect P) :
    Meets P (ctx.allowed P) p (resolveOptionalErrorType P ctx inner) fun t σ =>
      ∃ i, t = .union i ∧ σ.Done (.union i) := by
  refine Meets.bind (q := fun t σ => σ.Known t ∧ ∀ i, t = .union i → σ.Done (.union i)) ?_ fun t =>
    meets_get.bind fun τ => meets_makeOptional real_allowed
  have hinner := he.child (.inner inner)
  have hname := he _ .refl
  rw [optionalInner.eq_def]
  split
  · exact (meets_full hok).post fun t σ _ h => ⟨h.1, h.2 hname⟩
  · exact (meets_type hok hinner).post fun t σ _ h => ⟨h.1, h.2 ‹_›⟩

/-! ## Traits -/

theorem meets_resolveSignature {es : List TypeExpr} (he : ∀ e ∈ es, e.ErrorsDirect P) :
    Meets P (ctx.allowed P) p (resolveSignature ctx es) fun _ _ => True := by
  induction es with
  | nil => exact meets_pure fun _ _ _ => trivial
  | cons e es ih =>
    refine (meets_field hok (he e List.mem_cons_self)).andThen hs fun _ => ?_
    exact (ih fun e h => he e (List.mem_cons_of_mem _ h)).pre fun _ _ h => h.1

theorem meets_composeTraits {composing seen : List ResolvedType} {composed : List Name} :
    Meets P (ctx.allowed P) p (composeTraits ctx composing seen composed) fun _ _ => True := by
  induction composed generalizing seen with
  | nil => exact meets_pure fun _ _ _ => trivial
  | cons x composed ih =>
    refine (meets_full hok).andThen hs fun t => ?_
    split
    · exact ih.pre fun _ _ h => h.1
    · refine Meets.bind (q := fun _ => p) ?_ fun _ => Meets.bind (q := fun _ => p) ?_ fun _ => ih
      · exact meets_ite (fun _ => meets_report) fun _ => meets_pure fun _ _ h => h.1
      · exact meets_ite (fun _ => meets_report) fun _ => meets_pure fun _ _ h => h
    · exact Meets.bind (q := fun _ => p) meets_report fun _ => ih

/-! ## Names -/

omit hs hok in
theorem allowed_push {g : Guard} {a : Slot} (h : (ctx.push g).allowed P a) : ctx.allowed P a := by
  cases a with
  | struct i | union i =>
    obtain ⟨x, hx, hn⟩ := h
    exact ⟨x, hx, fun hm => hn (List.mem_cons_of_mem _ hm)⟩

omit hs hok in
theorem Context.Ok.push {σ : State} {g : Guard} (h : ctx.Ok σ)
    (hg : ∀ key t, g ≠ .generic key (some t)) : (ctx.push g).Ok σ := by
  refine ⟨fun _ _ hx => absurd hx List.not_mem_nil, fun key t hmem => ?_⟩
  obtain hmem | hmem := List.mem_cons.1 hmem
  · exact absurd hmem.symm (hg key t)
  · exact h.slots key t hmem

variable (hP : P.ErrorsDirect)
include hP

omit hs in
theorem meets_resolveFinalShallow {x : Name} :
    Meets P (ctx.allowed P) p (resolveFinalShallow P ctx x) fun t σ => σ.Known t ∧
      (P.slot x = none → P.Direct x → ∀ i, t = .union i → σ.Done (.union i)) := by
  rw [resolveFinalShallow]
  split
  · exact meets_fail
  · rename_i hslot
    exact meets_pure fun σ h _ => ⟨h.declared _ _ hslot, fun hn => by cases hslot.symm.trans hn⟩
  · rename_i d hd hslot
    refine meets_get.bind fun τ => ?_
    split
    · refine meets_pure ?_
      rintro σ h ⟨rfl, _⟩
      exact ⟨(h.aliases _ _ ‹_›).1, fun _ => (h.aliases _ _ ‹_›).2⟩
    · refine meets_ite (fun _ => meets_fail) fun hparams => meets_ite (fun _ => meets_fail) fun _ => ?_
      have htype : Meets P (ctx.allowed P) (fun σ => τ = σ ∧ p σ)
          (ask (ctx.push (.alias x), .type d.type)) (Result P (.type d.type)) := by
        refine (meets_type (fun σ h => ?_) (hP x d hd)).weaken fun a h => allowed_push h
        exact (hok σ h.2).push fun _ _ h => by cases h
      have hresult : ∀ t, ∀ σ, Result P (.type d.type) t σ → σ.Known t ∧
          (P.Direct x → ∀ i, t = .union i → σ.Done (.union i)) := fun t σ h =>
        ⟨h.1, fun hx => h.2 (hx d hd (Classical.not_not.1 hparams))⟩
      refine htype.bind fun t => Meets.bind (meets_modify (q := fun σ => σ.Known t ∧
        (P.Direct x → ∀ i, t = .union i → σ.Done (.union i))) (fun _ => rfl)
        fun σ hdiag h ht => ⟨?_, .of_eq hdiag rfl rfl, hresult t σ ht⟩) fun _ =>
          meets_pure fun σ _ h => ⟨h.1, fun _ => h.2⟩
      refine ⟨h.contents, h.empty, h.acc, h.members, h.errors, fun y u hy => ?_, h.instances,
        h.declared⟩
      obtain hy | ⟨rfl, rfl⟩ := lookup_concat hy
      · exact h.aliases y u hy
      · exact hresult _ _ ht

omit hok hP in
theorem stable_push {g : Guard} : Stable ((ctx.push g).allowed P) p :=
  hs.anti fun _ h => allowed_push h

omit hs hok hP in
theorem Meets.push {γ : Type} {g : Guard} {x : Resolve γ} {q : γ → State → Prop}
    (h : Meets P ((ctx.push g).allowed P) p x q) : Meets P (ctx.allowed P) p x q :=
  h.weaken fun _ => allowed_push

theorem meets_layoutTrait {x : Name} {i : Nat} {signature : List TypeExpr} {composed : List Name}
    {params : List GenericParam} (hd : P.find x = some ⟨params, .trait signature composed⟩) :
    Meets P (ctx.allowed P) p (layoutTrait P ctx x i signature composed) fun _ _ => True := by
  have hok' : ∀ composing σ, p σ → (ctx.push (.trait x composing)).Ok σ := fun _ σ h =>
    (hok σ h).push fun _ _ h => nomatch h
  refine Meets.andThen (Meets.push (meets_resolveSignature (stable_push hs) (hok' false)
    fun e h => (hP x _ hd).child (.signature h))) hs fun _ => ?_
  refine Meets.bind (Meets.pre (Meets.push (meets_composeTraits (stable_push hs) (hok' true)))
    fun _ _ h => h.1) fun _ => meets_setTrait

omit hs hok hP in
theorem slot_eq_some {x : Name} {t : ResolvedType} :
    P.slot x = some t ↔ ∃ d k, P.find x = some d ∧ d.params.isEmpty ∧
      d.type.aggregate = some k ∧ k.slot (((P.declared k).map Prod.fst).idxOf x) = t := by
  simp only [Program.slot, bind, Option.bind_eq_some_iff]
  constructor
  · rintro ⟨d, hd, h⟩
    split at h
    · obtain ⟨k, hk, ht⟩ := Option.bind_eq_some_iff.1 h
      exact ⟨d, k, hd, ‹_›, hk, Option.some.inj ht⟩
    · cases h
  · rintro ⟨d, k, hd, hparams, hk, rfl⟩
    refine ⟨d, hd, ?_⟩
    rw [if_pos hparams]
    exact Option.bind_eq_some_iff.2 ⟨k, hk, rfl⟩

omit hs hok hP in
theorem kind_slot_inj {k k' : AggregateKind} {i j : Nat} (h : k.slot i = k'.slot j) :
    k = k' ∧ i = j := by
  cases k <;> cases k' <;> cases h <;> exact ⟨rfl, rfl⟩

omit hs hok hP in
theorem slot_inj {x y : Name} {t : ResolvedType} (hx : P.slot x = some t) (hy : P.slot y = some t) :
    x = y := by
  obtain ⟨d, k, hd, hparams, hk, rfl⟩ := slot_eq_some.1 hx
  obtain ⟨d', k', _, _, _, h⟩ := slot_eq_some.1 hy
  obtain ⟨rfl, h⟩ := kind_slot_inj h
  refine (List.idxOf_inj ?_).1 h.symm
  refine List.mem_map.2 ⟨(x, d.type), List.mem_filterMap.2 ⟨(x, d), mem_of_lookup hd, ?_⟩, rfl⟩
  exact if_pos ⟨hparams, hk⟩

omit hs hok hP in
theorem pending_struct {σ : State} {x : Name} {i : Nat} (h : Inv P σ)
    (hslot : P.slot x = some (.struct i)) (hn : ¬ σ.structs[i]?.any (·.layoutDone) = true) :
    Pending ((ctx.push (.struct x)).allowed P) (.struct i) σ := by
  refine ⟨(h.declared x _ hslot).2 _ rfl, ?_, ?_⟩
  · rintro ⟨s, hget, hd⟩
    rw [hget] at hn
    exact hn hd
  · rintro ⟨y, hy, hmem⟩
    obtain rfl := slot_inj hslot hy
    exact hmem List.mem_cons_self

omit hs hok hP in
theorem pending_union {σ : State} {x : Name} {i : Nat} (h : Inv P σ)
    (hslot : P.slot x = some (.union i)) (hn : ¬ σ.unions[i]?.any (·.layoutDone) = true) :
    Pending ((ctx.push (.union x)).allowed P) (.union i) σ := by
  refine ⟨(h.declared x _ hslot).2 _ rfl, ?_, ?_⟩
  · rintro ⟨s, hget, hd⟩
    rw [hget] at hn
    exact hn hd
  · rintro ⟨y, hy, hmem⟩
    obtain rfl := slot_inj hslot hy
    exact hmem List.mem_cons_self

omit hs hok hP in
theorem done_of_any {σ : State} {i : Nat} (h : σ.unions[i]?.any (·.layoutDone) = true) :
    σ.Done (.union i) := by
  cases hget : σ.unions[i]? with
  | none => simp [hget] at h
  | some u =>
    rw [hget] at h
    exact ⟨u, hget, h⟩

omit hP in
/-- The layout of a declared slot, under its guard. -/
theorem meets_declared {x : Name} {a : Slot} {g : Guard} {y : Resolve Unit} {t : ResolvedType}
    (hslot : P.slot x = some t) (ha : ctx.allowed P a) (hg : ∀ key t, g ≠ .generic key (some t))
    (hy : ∀ p', Stable ((ctx.push g).allowed P) p' →
      (∀ σ, p' σ → (ctx.push g).Ok σ ∧ Pending ((ctx.push g).allowed P) a σ) →
      Meets P (fun b => (ctx.push g).allowed P b ∨ b = a) p' y fun _ σ => σ.Done a)
    {τ : State} (hpending : Inv P τ → Pending ((ctx.push g).allowed P) a τ)
    (ht : t.held = some a) :
    Meets P (ctx.allowed P) (fun σ => τ = σ ∧ p σ) (y >>= fun _ => pure t) fun t' σ =>
      σ.Known t' ∧ ∀ i, t' = .union i → σ.Done (.union i) := by
  have hmeets := hy (fun σ => p σ ∧ Pending ((ctx.push g).allowed P) a σ)
    ((stable_push hs).and stable_pending) fun σ h => ⟨(hok σ h.1).push hg, h.2⟩
  refine Meets.bind ((hmeets.weaken ?_).pre ?_) fun _ => meets_pure fun σ h hd => ?_
  · rintro b (hb | rfl)
    · exact allowed_push hb
    · exact ha
  · rintro σ h ⟨rfl, hp⟩
    exact ⟨hp, hpending h⟩
  · refine ⟨h.declared x t hslot, ?_⟩
    rintro i rfl
    cases ht
    exact hd

theorem meets_resolveFinalFull {x : Name} :
    Meets P (ctx.allowed P) p (resolveFinalFull P ctx x) (Result P (.full x)) := by
  refine meets_get.bind fun τ => ?_
  have hknown : ∀ {t : ResolvedType}, P.slot x = some t → (∀ i, t ≠ .union i) →
      ∀ σ, Inv P σ → Result P (.full x) t σ := fun hslot ht σ h =>
    ⟨h.declared x _ hslot, fun _ i hi => absurd hi (ht i)⟩
  split
  · rename_i i params isPacked fields hslot hfind
    refine meets_ite (fun _ => meets_pure fun σ h _ => hknown hslot (fun _ h => nomatch h) σ h)
      fun hn => meets_ite (fun _ => meets_fail) fun hx => ?_
    have ha : ctx.allowed P (.struct i) := ⟨x, hslot, hx⟩
    have hg : ∀ key t, Guard.struct x ≠ .generic key (some t) := fun _ _ h => nomatch h
    refine (meets_declared hs hok hslot ha hg (fun p' hs' hp' => ?_)
      (fun h => pending_struct h hslot hn) rfl).post fun t σ _ h => ⟨h.1, fun _ => h.2⟩
    exact meets_layoutStruct hs' (fun σ h => (hp' σ h).1) (fun σ h => (hp' σ h).2)
      fun y e h => (hP x _ hfind).child (.field h)
  · rename_i hslot hfind
    refine meets_ite (fun _ => meets_pure fun σ h _ => hknown hslot (fun _ h => nomatch h) σ h)
      fun hn => ?_
    have hg : ∀ key t, Guard.enum x (ctx.enumLevel x) ≠ .generic key (some t) :=
      fun _ _ h => nomatch h
    refine Meets.bind (Meets.pre (Meets.push (meets_layoutEnum (stable_push hs)
      (fun σ h => (hok σ h).push hg) ?_)) fun _ _ h => h.2) fun _ =>
        meets_pure fun σ h _ => hknown hslot (fun _ h => nomatch h) σ h
    rintro e rfl
    exact (hP x _ hfind).child (.underlying e _)
  · rename_i i params members hslot hfind
    refine meets_ite (fun hd => meets_pure ?_) fun hn => meets_ite (fun _ => meets_fail) fun hx => ?_
    · rintro σ h ⟨rfl, _⟩
      refine ⟨h.declared x _ hslot, fun _ i hi => ?_⟩
      cases hi
      exact done_of_any hd
    have ha : ctx.allowed P (.union i) := ⟨x, hslot, hx⟩
    have hg : ∀ key t, Guard.union x ≠ .generic key (some t) := fun _ _ h => nomatch h
    refine (meets_declared hs hok hslot ha hg (fun p' hs' hp' => ?_)
      (fun h => pending_union h hslot hn) rfl).post fun t σ _ h => ⟨h.1, fun _ => h.2⟩
    exact meets_layoutUnion hs' (fun σ h => (hp' σ h).1) (fun σ h => (hp' σ h).2)
      fun y e h => (hP x _ hfind).child (.member h)
  · rename_i i params members hslot hfind
    refine meets_ite (fun hd => meets_pure ?_) fun hn => meets_ite (fun _ => meets_fail) fun hx => ?_
    · rintro σ h ⟨rfl, _⟩
      refine ⟨h.declared x _ hslot, fun _ i hi => ?_⟩
      cases hi
      exact done_of_any hd
    have ha : ctx.allowed P (.union i) := ⟨x, hslot, hx⟩
    have hg : ∀ key t, Guard.union x ≠ .generic key (some t) := fun _ _ h => nomatch h
    refine (meets_declared hs hok hslot ha hg (fun p' hs' hp' => ?_)
      (fun h => pending_union h hslot hn) rfl).post fun t σ _ h => ⟨h.1, fun _ => h.2⟩
    exact meets_layoutTaggedUnion hs' (fun σ h => (hp' σ h).1) (fun σ h => (hp' σ h).2)
      fun y e h => (hP x _ hfind).child (.variant h)
  · rename_i hslot hfind
    refine meets_ite (fun _ => meets_pure fun σ h _ => hknown hslot (fun _ h => nomatch h) σ h)
      fun hn => meets_ite (fun _ => meets_fail) fun hx => ?_
    have hg : ∀ key t, Guard.bitset x ≠ .generic key (some t) := fun _ _ h => nomatch h
    refine Meets.bind (Meets.pre (Meets.push (meets_layoutBitset (stable_push hs)
      (fun σ h => (hok σ h).push hg) ?_)) fun _ _ h => h.2) fun _ =>
        meets_pure fun σ h _ => hknown hslot (fun _ h => nomatch h) σ h
    rintro e rfl
    exact (hP x _ hfind).child (.storage _ e)
  · rename_i hslot hfind
    have hpure : ∀ {p : State → Prop} {i : Nat}, P.slot x = some (.trait i) →
        Meets P (ctx.allowed P) p (pure (.trait i)) (Result P (.full x)) := fun hslot =>
      meets_pure fun σ h _ => hknown hslot (fun _ h => nomatch h) σ h
    refine meets_ite (fun _ => hpure hslot) fun hn => meets_ite (fun _ => hpure hslot) fun hx => ?_
    exact Meets.bind ((meets_layoutTrait hs hok hP hfind).pre fun _ _ h => h.2) fun _ =>
      hpure hslot
  · rename_i hstruct henum hunion htagged hbitset htrait
    have hslot : P.slot x = none := by
      refine Option.eq_none_iff_forall_ne_some.2 fun t ht => ?_
      obtain ⟨⟨params, e⟩, k, hd, _, hk, rfl⟩ := slot_eq_some.1 ht
      cases e <;> cases hk
      · exact hstruct _ _ _ _ ht hd
      · exact henum _ _ _ _ ht hd
      · exact hunion _ _ _ ht hd
      · exact htagged _ _ _ ht hd
      · exact hbitset _ _ _ _ ht hd
      · exact htrait _ _ _ _ ht hd
    refine (meets_resolveFinalShallow (fun σ h => hok σ h.2) hP).post fun t σ _ h => ?_
    exact ⟨h.1, h.2 hslot⟩

/-! ## Generic types -/

omit hs hok hP in
theorem allowed_generic {c : Context} {key : GenericInstanceKey} {slot : Option ResolvedType}
    (hc : c.stack = .generic key slot :: ctx.stack) : c.allowed P = ctx.allowed P := by
  funext a
  cases a with
  | struct i | union i => simp only [Context.allowed, hc, List.mem_cons, reduceCtorEq, false_or]

/-- The arguments are known types. -/
def ArgsKnown (args : List GenericArgValue) (σ : State) : Prop := ∀ t, .type t ∈ args → σ.Known t

omit hs hok hP in
theorem stable_argsKnown {A : Slot → Prop} {args : List GenericArgValue} :
    Stable A (ArgsKnown args) := stable_forall fun _ => stable_imp stable_known

omit hs hok hP in
theorem Context.Ok.generic {σ : State} {key : GenericInstanceKey} {slot : Option ResolvedType}
    {params : List Name} {args : List GenericArgValue} (h : ctx.Ok σ) (hargs : ArgsKnown args σ)
    (hslot : ∀ t, slot = some t → σ.Known t) :
    Context.Ok { stack := .generic key slot :: ctx.stack, env := params.zip args } σ := by
  refine ⟨fun x t hx => hargs t (List.of_mem_zip hx).2, fun k t hk => ?_⟩
  obtain hk | hk := List.mem_cons.1 hk
  · cases hk
    exact hslot t rfl
  · exact h.slots k t hk

omit hs hok hP in
theorem known_struct {A : Slot → Prop} {σ : State} {i : Nat} (h : Pending A (.struct i) σ) :
    σ.Known (.struct i) := by
  refine ⟨trivial, fun a ha => ?_⟩
  cases ha
  exact h.1

omit hs hok hP in
theorem known_union {A : Slot → Prop} {σ : State} {i : Nat} (h : Pending A (.union i) σ) :
    σ.Known (.union i) := by
  refine ⟨trivial, fun a ha => ?_⟩
  cases ha
  exact h.1

omit hs hok hP in
theorem mem_of_inProgress {key : GenericInstanceKey} {slot : Option ResolvedType}
    (h : ctx.inProgress key = some slot) : .generic key slot ∈ ctx.stack := by
  obtain ⟨g, hg, hslot⟩ := List.exists_of_findSome?_eq_some h
  split at hslot
  · split at hslot
    · cases hslot
      subst_vars
      exact hg
    · cases hslot
  · cases hslot

omit hs hok hP in
theorem meets_makeInstance {A : Slot → Prop} {key : GenericInstanceKey} {d : TypeDecl}
    {slot : Option ResolvedType}
    (h : Meets P A p (instanceType P
      { stack := .generic key slot :: ctx.stack, env := (d.params.map (·.name)).zip key.args }
      d.type slot) fun t σ => σ.Known t) :
    Meets P A p (makeInstance P ctx key d slot) fun t σ => σ.Known t := by
  refine h.bind fun t => Meets.bind (meets_modify (q := fun σ => σ.Known t) (fun _ => rfl)
    fun σ hd hinv hσ => ⟨?_, .of_eq hd rfl rfl, hσ⟩) fun _ => meets_pure fun _ _ h => h
  refine ⟨hinv.contents, hinv.empty, hinv.acc, hinv.members, hinv.errors, hinv.aliases,
    fun k u hk => ?_, hinv.declared⟩
  obtain hk | ⟨_, rfl⟩ := lookup_concat hk
  · exact hinv.instances k u hk
  · exact hσ

omit hP in
/-- The slot of an instance is made and laid out, and the instance is recorded. -/
theorem meets_newInstance {key : GenericInstanceKey} {d : TypeDecl}
    (hargs : ∀ σ, p σ → ArgsKnown key.args σ) (he : d.type.ErrorsDirect P) :
    Meets P (ctx.allowed P) p (preallocateAggregate d.type >>= makeInstance P ctx key d)
      fun t σ => σ.Known t := by
  obtain ⟨params, e⟩ := d
  let inner (slot : Option ResolvedType) : Context :=
    { stack := .generic key slot :: ctx.stack, env := (params.map (·.name)).zip key.args }
  have hallowed : ∀ slot, (inner slot).allowed P = ctx.allowed P := fun _ => allowed_generic rfl
  have hstable : ∀ slot, Stable ((inner slot).allowed P) p := fun slot => (hallowed slot).symm ▸ hs
  have hinner : ∀ slot σ, p σ → (∀ t, slot = some t → σ.Known t) → (inner slot).Ok σ :=
    fun slot σ h => (hok σ h).generic (hargs σ h)
  -- an instance without a slot that is stored by value
  have hother : ∀ slot, (∀ t, slot = some t → t.Proper ∧ t.held = none) →
      ∀ σ, p σ → (inner slot).Ok σ := fun slot hslot σ h =>
    hinner slot σ h fun t ht => known_of_held_none (hslot t ht).1 (hslot t ht).2
  have halias : Meets P (ctx.allowed P) p (makeInstance P ctx key ⟨params, e⟩ none)
      fun t σ => σ.Known t := by
    refine meets_makeInstance ?_
    rw [← hallowed none]
    exact (meets_type (hother none fun _ h => nomatch h) he).post fun _ _ _ h => h.1
  cases e with
  | struct isPacked fields =>
    show Meets P _ p (newStruct >>= fun i => makeInstance P ctx key _ (some (.struct i))) _
    refine meets_newStruct real_allowed hs fun i => meets_makeInstance ?_
    rw [← hallowed (some (.struct i))] at *
    refine Meets.bind (meets_layoutStruct ((hstable _).and stable_pending)
      (fun σ h => hinner _ σ h.1 fun t ht => ?_) (fun σ h => h.2)
      fun x e h => he.child (.field h)) fun _ => meets_pure fun σ _ hd => ?_
    · cases ht
      exact known_struct h.2
    · exact State.Complete.known ⟨trivial, fun a ha => by cases ha; exact hd⟩
  | union members =>
    show Meets P _ p (newUnion {} >>= fun i => makeInstance P ctx key _ (some (.union i))) _
    refine meets_newUnion real_allowed hs fun i => meets_makeInstance ?_
    rw [← hallowed (some (.union i))] at *
    refine Meets.bind (meets_layoutUnion ((hstable _).and stable_pending)
      (fun σ h => hinner _ σ h.1 fun t ht => ?_) (fun σ h => h.2)
      fun x e h => he.child (.member h)) fun _ => meets_pure fun σ _ hd => ?_
    · cases ht
      exact known_union h.2
    · exact (complete_union hd).known
  | taggedUnion members =>
    show Meets P _ p (newUnion {} >>= fun i => makeInstance P ctx key _ (some (.union i))) _
    refine meets_newUnion real_allowed hs fun i => meets_makeInstance ?_
    rw [← hallowed (some (.union i))] at *
    refine Meets.bind (meets_layoutTaggedUnion ((hstable _).and stable_pending)
      (fun σ h => hinner _ σ h.1 fun t ht => ?_) (fun σ h => h.2)
      fun x e h => he.child (.variant h)) fun _ => meets_pure fun σ _ hd => ?_
    · cases ht
      exact known_union h.2
    · exact (complete_union hd).known
  | enum underlying fields =>
    show Meets P _ p (newEnum >>= fun i => makeInstance P ctx key _ (some (.enum i))) _
    refine meets_newEnum.andThen hs fun i => (meets_makeInstance ?_).pre fun _ _ h => h.1
    rw [← hallowed (some (.enum i))]
    refine Meets.bind (meets_layoutEnum (hstable _) (hother _ fun t ht => ?_) ?_) fun _ =>
      meets_pure fun _ _ _ => known_of_held_none trivial rfl
    · cases ht
      exact ⟨trivial, rfl⟩
    · rintro e rfl
      exact he.child (.underlying e fields)
  | bitset member storage =>
    show Meets P _ p (newBitset >>= fun i => makeInstance P ctx key _ (some (.bitset i))) _
    refine meets_newBitset.andThen hs fun i => (meets_makeInstance ?_).pre fun _ _ h => h.1
    rw [← hallowed (some (.bitset i))]
    refine Meets.bind (meets_layoutBitset (hstable _) (hother _ fun t ht => ?_) ?_) fun _ =>
      meets_pure fun _ _ _ => known_of_held_none trivial rfl
    · cases ht
      exact ⟨trivial, rfl⟩
    · rintro e rfl
      exact he.child (.storage member e)
  | _ => exact halias

omit hP in
theorem meets_instantiateGenericType {x : Name} {d : TypeDecl} {args : List GenericArgValue}
    (hargs : ∀ σ, p σ → ArgsKnown args σ) (he : d.type.ErrorsDirect P) :
    Meets P (ctx.allowed P) p (instantiateGenericType P ctx x d args)
      fun t σ => σ.Known t := by
  refine meets_get.bind fun τ => ?_
  split
  · refine meets_pure ?_
    rintro σ h ⟨rfl, _⟩
    exact h.instances _ _ ‹_›
  · refine Meets.pre (p := p) ?_ fun _ _ h => h.2
    split
    · exact meets_pure fun σ _ h => (hok σ h).slots _ _ (mem_of_inProgress ‹_›)
    · exact meets_fail
    · exact meets_newInstance hs hok hargs he

omit hs hok hP in
theorem findTypeBinding_known {σ : State} {x : Name} {t : ResolvedType} (h : ctx.Ok σ)
    (hx : ctx.findTypeBinding x = some t) : σ.Known t := by
  obtain ⟨⟨y, v⟩, hmem, hv⟩ := List.exists_of_findSome?_eq_some hx
  cases v with
  | type u =>
    refine h.env y t ?_
    dsimp only at hv
    split at hv
    · cases hv
      exact hmem
    · cases hv
  | value n k => cases hv

omit hs in
theorem meets_resolveTypeName {x : Name} :
    Meets P (ctx.allowed P) p (resolveTypeName P ctx x) fun t σ => σ.Known t := by
  rw [resolveTypeName.eq_def]
  split
  · exact meets_pure fun σ _ h => findTypeBinding_known (hok σ h) ‹_›
  · refine meets_ite (fun _ => ?_) fun _ => meets_fail
    exact (meets_resolveFinalShallow hok hP).post fun _ _ _ h => h.1
  · exact meets_fail

/-- A generic argument that is there, and known if it is a type. -/
def ArgKnown (v : Option GenericArgValue) (σ : State) : Prop :=
  v ≠ none ∧ ∀ t, v = some (.type t) → σ.Known t

omit hs hok hP in
theorem stable_argKnown {A : Slot → Prop} {v : Option GenericArgValue} : Stable A (ArgKnown v) :=
  stable_const.and (stable_forall fun _ => stable_imp stable_known)

omit hs hok hP in
theorem argKnown_type {σ : State} {t : ResolvedType} (h : σ.Known t) :
    ArgKnown (some (.type t)) σ := by
  refine ⟨Option.some_ne_none _, fun t' ht => ?_⟩
  cases ht
  exact h

theorem meets_resolveGenericArg {x : Name} {k : ParamKind} {a : GenericArg}
    (he : ∀ e, a = .type e → e.ErrorsDirect P) :
    Meets P (ctx.allowed P) p (resolveGenericArg P ctx x k a) ArgKnown := by
  rw [resolveGenericArg.eq_def]
  split
  · exact (meets_type hok (he _ rfl)).bind fun t => meets_pure fun σ _ h => argKnown_type h.1
  · exact (meets_resolveTypeName hok hP).bind fun t => meets_pure fun σ _ h => argKnown_type h
  · refine (meets_evalIntegerConstExpr hs hok).bind fun n => meets_reportIf.bind fun _ =>
      meets_pure fun σ _ hn => ⟨hn, fun t ht => ?_⟩
    obtain ⟨_, _, h⟩ := Option.map_eq_some_iff.1 ht
    cases h
  · exact Meets.bind (q := fun _ _ => False) meets_report fun _ => meets_pure fun _ _ h => h.elim

theorem meets_resolveGenericArgs {x : Name} {params : List GenericParam} {args : List GenericArg}
    (he : ∀ e, .type e ∈ args → e.ErrorsDirect P) :
    Meets P (ctx.allowed P) p (resolveGenericArgs P ctx x params args) fun vs σ =>
      ∀ v ∈ vs, ArgKnown v σ := by
  induction params generalizing args p with
  | nil => exact meets_pure fun _ _ _ t ht => absurd ht List.not_mem_nil
  | cons q params ih =>
    cases args with
    | nil => exact meets_pure fun _ _ _ t ht => absurd ht List.not_mem_nil
    | cons a args =>
      refine (meets_resolveGenericArg hs hok hP fun e h =>
        he e (h ▸ List.mem_cons_self)).andThen hs fun v => ?_
      have hv := hs.and (stable_argKnown (v := v))
      refine (ih hv (fun σ h => hok σ h.1) fun e h => he e (List.mem_cons_of_mem _ h)).andThen hv
        fun vs => meets_pure fun σ _ h w hw => ?_
      obtain rfl | hw := List.mem_cons.1 hw
      · exact h.1.2
      · exact h.2 w hw

omit hs hok hP in
theorem mem_of_allSome {α : Type} {vs : List (Option α)} {ws : List α} (h : vs.allSome = some ws)
    {w : α} (hw : w ∈ ws) : some w ∈ vs := by
  induction vs generalizing ws with
  | nil =>
    cases h
    cases hw
  | cons v vs ih =>
    simp only [List.allSome, List.mapM_cons, Option.bind_eq_bind, Option.bind_eq_some_iff,
      id, Option.pure_def, Option.some.injEq] at h
    obtain ⟨u, rfl, us, hus, rfl⟩ := h
    obtain rfl | hw := List.mem_cons.1 hw
    · exact List.mem_cons_self
    · exact List.mem_cons_of_mem _ (ih hus hw)

omit hs hok hP in
theorem allSome_ne_none {α : Type} {vs : List (Option α)} (h : ∀ v ∈ vs, v ≠ none) :
    vs.allSome ≠ none := by
  induction vs with
  | nil => exact fun h => nomatch h
  | cons v vs ih =>
    obtain ⟨u, rfl⟩ := Option.ne_none_iff_exists'.1 (h v List.mem_cons_self)
    obtain ⟨us, hus⟩ := Option.ne_none_iff_exists'.1
      (ih fun v hv => h v (List.mem_cons_of_mem _ hv))
    rw [List.allSome] at hus ⊢
    simp [List.mapM_cons, hus]

theorem meets_resolveNamedTypeShallow {x : Name} {args : List GenericArg}
    (he : (TypeExpr.named x args).ErrorsDirect P) :
    Meets P (ctx.allowed P) p (resolveNamedTypeShallow P ctx x args) fun t σ => σ.Known t := by
  rw [resolveNamedTypeShallow.eq_def]
  split
  · rename_i t h
    refine meets_pure fun σ _ hp => findTypeBinding_known (hok σ hp) (x := x) ?_
    split at h
    · exact h
    · cases h
  · rename_i d _ hd
    refine meets_ite (fun _ => ?_) fun _ => meets_ite (fun _ => meets_fail) fun _ => ?_
    · exact (meets_resolveFinalShallow hok hP).post fun _ _ _ h => h.1
    refine (meets_resolveGenericArgs hs hok hP fun e h => ?_).andThen hs fun vs => ?_
    · split at h
      · obtain ⟨_, _, h⟩ := List.mem_map.1 h
        cases h
      · exact he.child (.arg h)
    · split
      · refine Meets.pre (meets_instantiateGenericType (hs.and stable_argsKnown)
          (fun σ h => hok σ h.1) (fun σ h => h.2) (hP x d hd)) fun σ _ h => ⟨h.1, fun t ht => ?_⟩
        exact (h.2 _ (mem_of_allSome ‹_› ht)).2 t rfl
      · refine meets_pure fun σ _ h => ?_
        exact absurd ‹_› (allSome_ne_none fun v hv => (h.2 v hv).1)
  · exact meets_fail

/-! ## Type expressions -/

omit hP in
theorem meets_resolveTypes {es : List TypeExpr} (he : ∀ e ∈ es, e.ErrorsDirect P) :
    Meets P (ctx.allowed P) p (resolveTypes ctx es) fun _ _ => True := by
  induction es with
  | nil => exact meets_pure fun _ _ _ => trivial
  | cons e es ih =>
    refine (meets_type hok (he e List.mem_cons_self)).andThen hs fun _ => ?_
    exact ((ih fun e h => he e (List.mem_cons_of_mem _ h)).pre fun _ _ h => h.1).bind fun _ =>
      meets_pure fun _ _ _ => trivial

/-- What a type expression gives that is not a name. -/
theorem meets_resolveTypeImpl {e : TypeExpr} (he : e.ErrorsDirect P) :
    Meets P (ctx.allowed P) p (resolveTypeImpl P ctx e) (Result P (.type e)) := by
  have hresult : ∀ {t : ResolvedType} {σ : State}, t.Proper → t.held = none →
      Result P (.type e) t σ := fun hp ht =>
    ⟨known_of_held_none hp ht, fun _ i hi => by
      subst hi
      cases ht⟩
  have hunion : ∀ {t : ResolvedType} {σ : State}, (∃ i, t = .union i ∧ σ.Done (.union i)) →
      Result P (.type e) t σ := by
    rintro _ σ ⟨i, rfl, hd⟩
    refine ⟨(complete_union hd).known, fun _ j hj => ?_⟩
    cases hj
    exact hd
  have hindirect : ∀ σ, p σ → ctx.indirect.Ok σ := fun σ h => (hok σ h).indirect
  cases e with
  | builtin k => exact meets_pure fun _ _ _ => hresult trivial rfl
  | named x args =>
    refine (meets_resolveNamedTypeShallow hs hok hP he).post fun t σ _ h => ⟨h, fun hn => ?_⟩
    exact absurd rfl (hn x args)
  | pointer e =>
    exact (meets_type hindirect (he.child (.pointer e))).bind fun t =>
      meets_pure fun _ _ h => hresult h.1.1 rfl
  | slice e =>
    exact (meets_type hindirect (he.child (.slice e))).bind fun t =>
      meets_pure fun _ _ h => hresult h.1.1 rfl
  | array size e =>
    cases size with
    | none => exact meets_fail
    | some size =>
      have hask : Meets P (ctx.allowed P) p
          (ask (ctx, if ctx.pointee then .type e else .field e)) fun t σ => σ.Known t := by
        split
        · exact (meets_type hok (he.child (.array _ e))).post fun _ _ _ h => h.1
        · exact (meets_field hok (he.child (.array _ e))).post fun _ _ _ h => h.1
      refine hask.andThen hs fun t => ?_
      refine (meets_arrayLenExprValue (hs.and stable_known) fun σ h => hok σ h.1).andThen
        (hs.and stable_known) fun n => meets_get.bind fun τ =>
          meets_ite (fun _ => meets_fail) fun _ => meets_pure fun σ _ h => ?_
      exact ⟨h.2.1.2, fun _ i hi => nomatch hi⟩
  | struct isPacked fields =>
    refine meets_newStruct real_allowed hs fun i => Meets.bind (meets_layoutStruct
      (hs.and stable_pending) (fun σ h => hok σ h.1) (fun σ h => h.2)
      fun x e h => he.child (.field h)) fun _ => meets_pure fun σ _ hd => ?_
    refine ⟨State.Complete.known ⟨trivial, fun a ha => ?_⟩, fun _ i hi => nomatch hi⟩
    cases ha
    exact hd
  | enum underlying fields =>
    refine meets_newEnum.andThen hs fun i => Meets.bind ((meets_layoutEnum hs hok ?_).pre
      fun _ _ h => h.1) fun _ => meets_pure fun _ _ _ => hresult trivial rfl
    rintro e rfl
    exact he.child (.underlying e fields)
  | union members =>
    exact meets_newUnion real_allowed hs fun i => Meets.bind (meets_layoutUnion
      (hs.and stable_pending) (fun σ h => hok σ h.1) (fun σ h => h.2)
      fun x e h => he.child (.member h)) fun _ => meets_pure fun σ _ hd => hunion ⟨i, rfl, hd⟩
  | taggedUnion members =>
    exact meets_newUnion real_allowed hs fun i => Meets.bind (meets_layoutTaggedUnion
      (hs.and stable_pending) (fun σ h => hok σ h.1) (fun σ h => h.2)
      fun x e h => he.child (.variant h)) fun _ => meets_pure fun σ _ hd => hunion ⟨i, rfl, hd⟩
  | bitset member storage =>
    refine meets_newBitset.andThen hs fun i => Meets.bind ((meets_layoutBitset hs hok ?_).pre
      fun _ _ h => h.1) fun _ => meets_pure fun _ _ _ => hresult trivial rfl
    rintro e rfl
    exact he.child (.storage member e)
  | function params returns =>
    have hs' : Stable (ctx.indirect.allowed P) p := hs
    have hparams := meets_resolveTypes hs' hindirect fun e h => he.child (.param h)
    have hreturns := meets_resolveTypes hs' hindirect fun e h => he.child (.return h)
    refine hparams.andThen hs fun ps => (hreturns.pre fun _ _ h => h.1).bind fun rs => ?_
    exact meets_internFunctionType.post fun t σ _ h => ⟨h.1, fun _ => h.2⟩
  | trait signature composed => exact meets_fail
  | error members =>
    have hmembers : ∀ x ∈ members, P.Direct x := he _ .refl
    exact (meets_resolveErrorType hs hok hmembers).post fun _ _ _ => hunion
  | optionalError inner =>
    exact (meets_resolveOptionalErrorType hok he).post fun _ _ _ => hunion

omit hs hP in
theorem meets_resolveFieldType {e : TypeExpr} (he : e.ErrorsDirect P) :
    Meets P (ctx.allowed P) p (resolveFieldType P ctx e) (Result P (.field e)) := by
  rw [resolveFieldType.eq_def]
  split
  · split
    · exact meets_pure fun σ _ h => ⟨findTypeBinding_known (hok σ h) ‹_›, trivial⟩
    · refine meets_ite (fun _ => ?_) fun _ => ?_
      · exact (meets_full hok).post fun _ _ _ h => ⟨h.1, trivial⟩
      · exact (meets_type hok he).post fun _ _ _ h => ⟨h.1, trivial⟩
    · exact meets_fail
  · exact (meets_type hok he).post fun _ _ _ h => ⟨h.1, trivial⟩

end

end

/-! ## Whole runs -/

/-- Whatever the resolver returns, it answers as specified. -/
theorem answers_of_returns {P : Program} (hP : P.ErrorsDirect) {a : Context × Job} {σ τ : State}
    {t : ResolvedType} (h : Returns (step (resolve P)) (a, σ) (t, τ)) :
    Answers P (a, σ) (t, τ) := by
  refine fun hpre => spec_of_step (p := fun a σ => a.2.ErrorsDirect P ∧
    (σ.diagnostics = [] → Inv P σ ∧ a.1.Ok σ)) (q := fun a σ t τ => τ.diagnostics = [] →
      Inv P τ ∧ Grows (a.1.allowed P) σ τ ∧ Result P a.2 t τ) ?_ h hpre
  rintro ⟨ctx, job⟩ σ ⟨hjob, hσ⟩
  have hmeets : Meets P (ctx.allowed P) ctx.Ok (resolve P (ctx, job)) (Result P job) := by
    cases job with
    | type e => exact meets_resolveTypeImpl stable_ok (fun _ h => h) hP hjob
    | field e => exact meets_resolveFieldType (fun _ h => h) hjob
    | full x => exact meets_resolveFinalFull stable_ok (fun _ h => h) hP
  exact hmeets σ hσ

theorem meets_resolveAll {P : Program} {jobs : List Job}
    (hjobs : ∀ job ∈ jobs, job.ErrorsDirect P) :
    Meets P (Context.allowed P {}) (fun _ => True) (resolveAll jobs)
      fun ts _ => ∀ t ∈ ts, t.Proper := by
  induction jobs with
  | nil => exact meets_pure fun _ _ _ t ht => absurd ht List.not_mem_nil
  | cons job jobs ih =>
    have hok : ∀ σ, True → Context.Ok {} σ := fun _ _ =>
      ⟨fun _ _ h => absurd h List.not_mem_nil, fun _ _ h => absurd h List.not_mem_nil⟩
    refine (meets_ask (hjobs job List.mem_cons_self) hok).bind fun t => ?_
    have ht : Stable (Context.allowed P {}) (·.Known t) := stable_known
    refine Meets.pre (p := (·.Known t)) ?_ fun _ _ h => h.1
    refine ((ih fun job h => hjobs job (List.mem_cons_of_mem _ h)).pre fun _ _ _ => trivial).andThen
      ht fun ts => meets_pure fun σ _ h u hu => ?_
    obtain rfl | hu := List.mem_cons.1 hu
    · exact h.1.1
    · exact h.2 u hu

theorem not_done_declareTypes {P : Program} {a : Slot} : ¬ (declareTypes P).Done a := by
  cases a with
  | struct i | union i =>
    rintro ⟨s, hs, hd⟩
    obtain ⟨_, _, rfl⟩ := List.mem_map.1 (List.mem_of_getElem? hs)
    cases hd

theorem contents_declareTypes {P : Program} {a : Slot} : (declareTypes P).contents a = [] := by
  cases a with
  | struct i =>
    rw [State.contents]
    cases h : (declareTypes P).structs[i]? with
    | none => rfl
    | some s =>
      obtain ⟨_, _, rfl⟩ := List.mem_map.1 (List.mem_of_getElem? h)
      rfl
  | union i =>
    rw [State.contents]
    cases h : (declareTypes P).unions[i]? with
    | none => rfl
    | some s =>
      obtain ⟨_, _, rfl⟩ := List.mem_map.1 (List.mem_of_getElem? h)
      rfl

theorem inv_declareTypes (P : Program) : Inv P (declareTypes P) where
  contents a t ht := absurd ht (contents_declareTypes ▸ List.not_mem_nil)
  empty _ _ := contents_declareTypes
  acc a := .intro a fun b ⟨t, ht, _⟩ => absurd ht (contents_declareTypes ▸ List.not_mem_nil)
  members i u hu t ht := by
    obtain ⟨_, _, rfl⟩ := List.mem_map.1 (List.mem_of_getElem? hu)
    cases ht
  errors _ _ h := nomatch h
  aliases _ _ h := nomatch h
  instances _ _ h := nomatch h
  declared x t hx := by
    obtain ⟨d, k, hd, hparams, hk, rfl⟩ := slot_eq_some.1 hx
    have hmem : x ∈ (P.declared k).map Prod.fst := by
      refine List.mem_map.2 ⟨(x, d.type), List.mem_filterMap.2 ⟨(x, d), mem_of_lookup hd, ?_⟩, rfl⟩
      exact if_pos ⟨hparams, hk⟩
    have hlt := List.idxOf_lt_length_of_mem hmem
    cases k with
    | struct | union =>
      refine ⟨trivial, fun a ha => ?_⟩
      cases ha
      simpa [State.Exists, declareTypes] using hlt
    | enum | bitset | trait => exact known_of_held_none trivial rfl

/-- `type Node = struct { next: *Node }`. -/
def nodes : Program where
  decls := [("Node", ⟨[], .struct false [("next", .pointer (.named "Node" []))]⟩)]
  pointerSize := 8
  nodup := List.nodup_singleton _

theorem errorsDirect_node : TypeExpr.ErrorsDirect nodes (.named "Node" []) := by
  refine .of_children trivial fun e h => ?_
  cases h with
  | arg h => cases h

theorem errorsDirect_nodes : nodes.ErrorsDirect := by
  intro x d hd
  cases mem_of_lookup hd with
  | head =>
    refine .of_children trivial fun e h => ?_
    cases h with
    | field h =>
      cases List.mem_singleton.1 h
      refine .of_children trivial fun e h => ?_
      cases h with
      | pointer => exact errorsDirect_node
  | tail _ h => cases h

def boxField : TypeExpr := .pointer (.named "Box" [.type (.pointer (.named "T" []))])

/-- `type Box[T: type] = struct { next: *Box[*T] }`. -/
def boxes : Program where
  decls := [("Box", ⟨[⟨"T", .type⟩], .struct false [("next", boxField)]⟩)]
  pointerSize := 8
  nodup := List.nodup_singleton _

def ResolvedType.depth : ResolvedType → Nat
  | .pointer t => t.depth + 1
  | _ => 0

/-- The instances in progress have arguments of at most the depth. -/
def Context.DepthLE (ctx : Context) (n : Nat) : Prop :=
  ∀ key slot, .generic key slot ∈ ctx.stack → ∃ u, key.args = [.type u] ∧ u.depth ≤ n

/-- A call in the right-hand side of an instance of `Box`. -/
structure InBox (r : (Context × Job) × State) : Prop where
  instances : r.2.genericTypeInstances = []
  env : ∃ t, r.1.1.env = [("T", .type t)] ∧ r.1.1.DepthLE t.depth
  job : r.1.2 = .field boxField ∨ r.1.2 = .type boxField ∨
    r.1.2 = .type (.named "Box" [.type (.pointer (.named "T" []))])

section

variable {R : (Context × Job) × State → ResolvedType × State → Prop} {ctx : Context} {σ : State}

theorem inProgress_eq_none {t u : ResolvedType} {x : Name} (h : ctx.DepthLE t.depth)
    (hu : t.depth < u.depth ∨ ctx.stack = []) : ctx.inProgress ⟨x, [.type u]⟩ = none := by
  cases hprogress : ctx.inProgress ⟨x, [.type u]⟩ with
  | none => rfl
  | some slot =>
    have hmem := mem_of_inProgress hprogress
    obtain hu | hu := hu
    · obtain ⟨v, hv, hle⟩ := h _ _ hmem
      cases hv
      omega
    · rw [hu] at hmem
      cases hmem

/-- The context in the right-hand side of an instance of `Box`. -/
def boxContext (ctx : Context) (u : ResolvedType) (slot : Option ResolvedType) : Context where
  stack := .generic ⟨"Box", [.type u]⟩ slot :: ctx.stack
  env := [("T", .type u)]

/-- An instance of `Box` with a new argument leads to its field. -/
theorem box_leads {e : TypeExpr} {u : ResolvedType} {b : ResolvedType × State}
    (h : EvalsBy R (resolve boxes (ctx, .type (.named "Box" [.type e])) σ) b)
    (harg : ∀ b, R ((ctx, .type e), σ) b → b = (u, σ))
    (hσ : σ.genericTypeInstances = []) (hu : ctx.inProgress ⟨"Box", [.type u]⟩ = none) :
    ∃ slot b, R ((boxContext ctx u slot, .field boxField), σ.pushStruct {}) b := by
  -- the argument, and then the instance in the same state
  obtain ⟨⟨vs, σ₁⟩, hvs, h⟩ := evalsBy_bind.1 h
  obtain ⟨⟨v, σ₂⟩, hv, hvs⟩ := evalsBy_bind.1 hvs
  obtain ⟨b₁, hb₁, hv⟩ := evalsBy_bind.1 hv
  obtain rfl := harg b₁ (evalsBy_call.1 hb₁)
  cases evalsBy_pure.1 hv
  cases evalsBy_pure.1 hvs
  have hmake : EvalsBy R (instantiateGenericType boxes ctx "Box"
      ⟨[⟨"T", .type⟩], .struct false [("next", boxField)]⟩ [.type u] σ) b := h
  obtain ⟨⟨τ, τ'⟩, hget, h⟩ := evalsBy_bind.1 hmake
  cases evalsBy_pure.1 hget
  have hlookup : σ.genericTypeInstances.lookup ⟨"Box", [.type u]⟩ = none := by
    rw [hσ]
    rfl
  simp only [hlookup, hu] at h
  -- the slot is made, and the field is the first call
  obtain ⟨⟨slot, τ⟩, hslot, h⟩ := evalsBy_bind.1 h
  cases evalsBy_pure.1 hslot
  obtain ⟨⟨t, τ⟩, ht, h⟩ := evalsBy_bind.1 h
  obtain ⟨⟨_, τ⟩, hlayout, _⟩ := evalsBy_bind.1 ht
  obtain ⟨⟨l, τ⟩, hfields, _⟩ := evalsBy_bind.1 hlayout
  obtain ⟨⟨t, τ⟩, hmember, _⟩ := evalsBy_bind.1 hfields
  obtain ⟨b₂, hfield, _⟩ := evalsBy_bind.1 hmember
  exact ⟨_, b₂, evalsBy_call.1 hfield⟩

/-- The argument of `Box` in its right-hand side. -/
theorem pointer_returns {t : ResolvedType} (henv : ctx.env = [("T", .type t)])
    {b : ResolvedType × State}
    (h : Returns (step (resolve boxes)) ((ctx, .type (.pointer (.named "T" []))), σ) b) :
    b = (.pointer t, σ) := by
  have hbinding : ctx.findTypeBinding "T" = some t := by
    rw [Context.findTypeBinding, henv]
    rfl
  have hname : Returns (step (resolve boxes)) ((ctx.indirect, .type (.named "T" [])), σ) (t, σ) := by
    refine returns_iff.2 ?_
    show Evals _ (resolveNamedTypeShallow boxes ctx.indirect "T" [] σ) (t, σ)
    have hbinding' : ctx.indirect.findTypeBinding "T" = some t := hbinding
    simp only [resolveNamedTypeShallow, List.isEmpty_nil, if_true, hbinding']
    exact evals_pure.2 rfl
  refine h.unique (returns_iff.2 ?_)
  exact evals_bind.2 ⟨(t, σ), evals_call.2 hname, evals_pure.2 rfl⟩

/-- No call in the right-hand side of an instance returns: it leads to another instance. -/
theorem inBox_not_returns {r : (Context × Job) × State} {b : ResolvedType × State} (hr : InBox r)
    (h : Returns (step (resolve boxes)) r b) : False := by
  refine Returns.induct (Q := fun r _ => InBox r → False) ?_ h hr
  rintro ⟨⟨ctx, job⟩, σ⟩ b h ⟨hσ, ⟨t, henv, hdepth⟩, hjob⟩
  dsimp only at hσ henv hdepth hjob
  obtain rfl | rfl | rfl := hjob
  · exact (evalsBy_call.1 h).2 ⟨hσ, ⟨t, henv, hdepth⟩, .inr (.inl rfl)⟩
  · obtain ⟨b₁, hb, _⟩ := evalsBy_bind.1 h
    exact (evalsBy_call.1 hb).2 ⟨hσ, ⟨t, henv, hdepth⟩, .inr (.inr rfl)⟩
  · obtain ⟨slot, b₁, _, hb⟩ := box_leads h (fun b hb => pointer_returns henv hb.1) hσ
      (inProgress_eq_none hdepth (.inl (Nat.lt_succ_self _)))
    refine hb ⟨hσ, ⟨_, rfl, fun key slot hmem => ?_⟩, .inl rfl⟩
    obtain hmem | hmem := List.mem_cons.1 hmem
    · cases hmem
      exact ⟨_, rfl, le_refl _⟩
    · obtain ⟨v, hv, hle⟩ := hdepth key slot hmem
      exact ⟨v, hv, Nat.le_succ_of_le hle⟩

end

end Mirage.Types
