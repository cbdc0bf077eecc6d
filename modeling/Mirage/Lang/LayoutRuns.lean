import Mirage.Lang.Layout

/-!
# Layouts of the resolver

The resolver keeps every size below `2 ^ 32` and every alignment a power of two of at most
16 (`Sized`), whatever types it comes to. What it lays out are therefore layouts of members
in the sense of `structLayout`, `unionLayout`, `payloadLayout` and `errorLayout`, and each
is sound exactly when its exact size is in range.

* `keeps_resolve`: every job of the resolver keeps the sizes and the alignments;
* `layouts_sound_iff`: when the layouts a run makes are sound;
* `hugePair_not_sound`: a struct that is accepted and whose fields overlap.
-/

namespace Mirage.Types

open Calls Stateful

/-! ## Sizes and alignments -/

/-- The aggregates that are there have sizes and alignments in range. -/
structure Sized (σ : State) : Prop where
  structs : ∀ s ∈ σ.structs, s.size < 2 ^ 32 ∧ AlignOk s.align
  unions : ∀ u ∈ σ.unions, u.size < 2 ^ 32 ∧ AlignOk u.align

/-- The widths of a pointer of the targets. -/
def Program.HasWord (P : Program) : Prop := P.pointerSize = 4 ∨ P.pointerSize = 8

section

variable {P : Program} {σ τ : State}

theorem builtin_size_ok (hP : P.HasWord) (k : Builtin) :
    k.size P.pointerSize < 2 ^ 32 ∧ AlignOk (k.size P.pointerSize) := by
  unfold AlignOk
  obtain h | h := hP <;> rw [h] <;> cases k <;> decide

theorem primitiveSize_ok (hP : P.HasWord) (t : ResolvedType) :
    primitiveSize P.pointerSize t < 2 ^ 32 ∧ AlignOk (primitiveSize P.pointerSize t) := by
  have hwords : 2 * P.pointerSize < 2 ^ 32 ∧ AlignOk (2 * P.pointerSize) := by
    unfold AlignOk
    obtain h | h := hP <;> rw [h] <;> decide
  rw [primitiveSize.eq_def]
  split
  · exact builtin_size_ok hP _
  · exact builtin_size_ok hP .usize
  · exact builtin_size_ok hP .usize
  · exact hwords
  · exact hwords
  · exact ⟨by decide, alignOk_zero⟩

theorem alignOk_pointerSize (hP : P.HasWord) : AlignOk P.pointerSize :=
  (primitiveSize_ok hP (.pointer .invalid)).2

theorem Sized.size_lt (hσ : Sized σ) (hP : P.HasWord) (t : ResolvedType) :
    σ.resolvedTypeSize P.pointerSize t < 2 ^ 32 := by
  have helem {α : Type} {l : List α} {i : Nat} {f : α → Nat} (h : ∀ a ∈ l, f a < 2 ^ 32) :
      (l[i]?.map f).getD 0 < 2 ^ 32 := by
    cases hi : l[i]? with
    | none => exact Nat.two_pow_pos 32
    | some a => exact h a (List.mem_of_getElem? hi)
  cases t with
  | struct i => exact helem fun s hs => (hσ.structs s hs).1
  | union i => exact helem fun u hu => (hσ.unions u hu).1
  | enum i => exact helem fun e _ => (primitiveSize_ok hP _).1
  | bitset i => exact helem fun b _ => (primitiveSize_ok hP _).1
  | array e n => exact (min_le_right _ _).trans_lt (by decide)
  | invalid | builtin | trait | function | pointer | slice => exact (primitiveSize_ok hP _).1

theorem Sized.align_ok (hσ : Sized σ) (hP : P.HasWord) (t : ResolvedType) :
    AlignOk (σ.resolvedTypeAlign P.pointerSize t) := by
  have helem {α : Type} {l : List α} {i : Nat} {f : α → Nat} (h : ∀ a ∈ l, AlignOk (f a)) :
      AlignOk ((l[i]?.map f).getD 1) := by
    cases hi : l[i]? with
    | none => exact alignOk_one
    | some a => exact h a (List.mem_of_getElem? hi)
  induction t with
  | struct i => exact helem fun s hs => (hσ.structs s hs).2
  | union i => exact helem fun u hu => (hσ.unions u hu).2
  | enum i => exact helem fun e _ => (primitiveSize_ok hP _).2
  | bitset i => exact helem fun b _ => (primitiveSize_ok hP _).2
  | array e n ih => exact ih
  | trait i | slice e => exact alignOk_pointerSize hP
  | builtin k =>
    cases k with
    | any => exact ⟨2, rfl⟩
    | _ => exact (primitiveSize_ok hP _).2
  | invalid | function | pointer => exact (primitiveSize_ok hP _).2

/-- A field of a type, with the size and the alignment the type has now. -/
def Sized.member (hσ : Sized σ) (hP : P.HasWord) (x : Name) (t : ResolvedType) : Member :=
  ⟨x, t, σ.resolvedTypeSize P.pointerSize t, σ.resolvedTypeAlign P.pointerSize t, hσ.size_lt hP t,
    hσ.align_ok hP t⟩

/-- A payload that is kept in a struct. -/
def Sized.payload (hσ : Sized σ) (x : Name) (t : ResolvedType) (i : Nat) : Member where
  name := x
  type := t
  size := σ.structs[i]?.elim 0 (·.size)
  align := σ.structs[i]?.elim 0 (·.align)
  size_lt := by
    cases hi : σ.structs[i]? with
    | none => decide
    | some s => exact (hσ.structs s (List.mem_of_getElem? hi)).1
  align_ok := by
    cases hi : σ.structs[i]? with
    | none => exact alignOk_zero
    | some s => exact (hσ.structs s (List.mem_of_getElem? hi)).2

/-- The state with the layout in the slot of a struct. -/
def State.withStruct (σ : State) (i : Nat) (info : StructInfo) : State :=
  { σ with structs := σ.structs.set i info }

/-- The state with the layout in the slot of a union. -/
def State.withUnion (σ : State) (i : Nat) (info : UnionInfo) : State :=
  { σ with unions := σ.unions.set i info }

theorem Sized.congr (h : Sized σ) (hstructs : τ.structs = σ.structs) (hunions : τ.unions = σ.unions) :
    Sized τ := ⟨hstructs ▸ h.structs, hunions ▸ h.unions⟩

theorem Sized.setStruct (h : Sized σ) {i : Nat} {s : StructInfo}
    (hs : s.size < 2 ^ 32 ∧ AlignOk s.align) : Sized (σ.withStruct i s) :=
  ⟨fun s' hs' => (List.mem_or_eq_of_mem_set hs').elim (h.structs s') fun h => h ▸ hs, h.unions⟩

theorem Sized.setUnion (h : Sized σ) {i : Nat} {u : UnionInfo}
    (hu : u.size < 2 ^ 32 ∧ AlignOk u.align) : Sized (σ.withUnion i u) :=
  ⟨h.structs, fun u' hu' => (List.mem_or_eq_of_mem_set hu').elim (h.unions u') fun h => h ▸ hu⟩

theorem Sized.pushStruct (h : Sized σ) {s : StructInfo} (hs : s.size < 2 ^ 32 ∧ AlignOk s.align) :
    Sized { σ with structs := σ.structs ++ [s] } :=
  ⟨fun s' hs' => (List.mem_append.1 hs').elim (h.structs s') fun h =>
    List.mem_singleton.1 h ▸ hs, h.unions⟩

theorem Sized.pushUnion (h : Sized σ) {u : UnionInfo} (hu : u.size < 2 ^ 32 ∧ AlignOk u.align) :
    Sized { σ with unions := σ.unions ++ [u] } :=
  ⟨h.structs, fun u' hu' => (List.mem_append.1 hu').elim (h.unions u') fun h =>
    List.mem_singleton.1 h ▸ hu⟩

end

theorem structLayout_ok {isPacked : Bool} {ms : List Member} :
    (structLayout isPacked ms).size < 2 ^ 32 ∧ AlignOk (structLayout isPacked ms).align := by
  refine ⟨structLayout_size_lt, ?_⟩
  rw [structLayout, FieldsLayout.info]
  cases isPacked with
  | true => exact alignOk_one
  | false =>
    have hfold : ∀ (ms : List Member) (l : FieldsLayout), AlignOk l.maxAlign →
        AlignOk (ms.foldl (FieldsLayout.addMember false) l).maxAlign := by
      intro ms
      induction ms with
      | nil => exact fun l h => h
      | cons m ms ih => exact fun l h => ih _ (h.max m.align_ok)
    exact hfold ms {} alignOk_one

theorem withPayload_ok {info : UnionInfo} {size align : Nat} (h : AlignOk align) :
    (info.withPayload size align).size < 2 ^ 32 ∧ AlignOk (info.withPayload size align).align :=
  ⟨withPayload_size_lt, alignOk_four.max h⟩

/-- Only whether the alignment is larger than one matters. -/
theorem withPayload_congr {info : UnionInfo} {size a b : Nat} (h : max a 1 = max b 1) :
    info.withPayload size a = info.withPayload size b := by
  have hfour : max 4 a = max 4 b := by omega
  rw [UnionInfo.withPayload, UnionInfo.withPayload, h, hfour]

/-! ## What the resolver keeps -/

/-- The specification of the calls. -/
def KeepsSizes (r : (Context × Job) × State) (b : ResolvedType × State) : Prop :=
  Sized r.2 → Sized b.2

/-- The computation keeps the sizes and the alignments in range. -/
def Keeps {γ : Type} (x : Resolve γ) : Prop := Triple KeepsSizes Sized x fun _ => Sized

section

variable {P : Program} {ctx : Context} {γ δ : Type}

theorem keeps_pure {c : γ} : Keeps (pure c) := triple_pure fun _ h => h

theorem keeps_ask {a : Context × Job} : Keeps (ask a) := triple_ask fun _ hs _ _ h => h hs

theorem keeps_get : Keeps get := triple_get fun _ h => h

theorem Keeps.bind {x : Resolve γ} {f : γ → Resolve δ} (hx : Keeps x) (hf : ∀ c, Keeps (f c)) :
    Keeps (x >>= f) :=
  Triple.bind hx hf

theorem keeps_modify {f : State → State} (h : ∀ σ, Sized σ → Sized (f σ)) : Keeps (modify f) :=
  triple_modify h

theorem keeps_ite {c : Prop} [Decidable c] {x y : Resolve γ} (hx : Keeps x) (hy : Keeps y) :
    Keeps (if c then x else y) := by
  split
  · exact hx
  · exact hy

theorem keeps_report {d : Diagnostic} : Keeps (report d) := keeps_modify fun _ h => h.congr rfl rfl

theorem keeps_fail {d : Diagnostic} : Keeps (fail d) := keeps_report.bind fun _ => keeps_pure

theorem keeps_reportIf {c : Prop} [Decidable c] {d : Diagnostic} : Keeps (reportIf c d) :=
  keeps_ite keeps_report keeps_pure

theorem keeps_newStruct : Keeps newStruct :=
  keeps_get.bind fun _ => (keeps_modify fun _ h => h.pushStruct ⟨by decide, alignOk_one⟩).bind
    fun _ => keeps_pure

theorem keeps_newUnion {info : UnionInfo} (h : info.size < 2 ^ 32 ∧ AlignOk info.align) :
    Keeps (newUnion info) :=
  keeps_get.bind fun _ => (keeps_modify fun _ hσ => hσ.pushUnion h).bind fun _ => keeps_pure

theorem keeps_emptyUnion : Keeps (newUnion {}) := keeps_newUnion ⟨by decide, alignOk_one⟩

theorem keeps_newEnum : Keeps newEnum :=
  keeps_get.bind fun _ => Keeps.bind (keeps_modify fun _ h => h.congr rfl rfl) fun _ => keeps_pure

theorem keeps_newBitset : Keeps newBitset :=
  keeps_get.bind fun _ => Keeps.bind (keeps_modify fun _ h => h.congr rfl rfl) fun _ => keeps_pure

theorem keeps_internFunctionType {ps rs : List ResolvedType} : Keeps (internFunctionType ps rs) := by
  refine keeps_get.bind fun σ => ?_
  split
  · exact keeps_pure
  · exact Keeps.bind (keeps_modify fun _ h => h.congr rfl rfl) fun _ => keeps_pure

/-! ### Constant expressions and enums -/

theorem keeps_sizeOperand {x : Name} : Keeps (sizeOperand P ctx x) := by
  rw [sizeOperand]
  split
  · exact keeps_ask
  · exact keeps_fail

theorem keeps_evalIntegerConstExpr {e : ValueExpr} {iota : Nat} :
    Keeps (evalIntegerConstExpr P ctx iota e) := by
  induction e generalizing iota with
  | literal | name | iota | other => exact keeps_pure
  | sizeOf x | alignOf x =>
    exact keeps_sizeOperand.bind fun _ => keeps_get.bind fun _ => keeps_pure
  | add a b iha ihb | mul a b iha ihb => exact iha.bind fun _ => ihb.bind fun _ => keeps_pure

theorem keeps_arrayLenExprValue {e : ValueExpr} : Keeps (arrayLenExprValue P ctx e) :=
  keeps_evalIntegerConstExpr.bind fun _ => keeps_reportIf.bind fun _ => keeps_pure

theorem keeps_enumFieldValue {iota : Nat} {pattern : Option ValueExpr} {x : Name}
    {init : Option ValueExpr} : Keeps (enumFieldValue P ctx iota pattern x init) := by
  rw [enumFieldValue.eq_def]
  split
  · exact keeps_evalIntegerConstExpr.bind fun _ => keeps_reportIf.bind fun _ => keeps_pure
  · split
    · exact keeps_evalIntegerConstExpr.bind fun _ => keeps_pure
    · exact keeps_pure

theorem keeps_layoutEnumFields {fields : List (Name × Option ValueExpr)} {iota : Nat}
    {pattern : Option ValueExpr} {done : List (Name × Int)} :
    Keeps (layoutEnumFields P ctx iota pattern done fields) := by
  induction fields generalizing iota pattern done with
  | nil => exact keeps_pure
  | cons field fields ih =>
    exact keeps_enumFieldValue.bind fun _ => keeps_reportIf.bind fun _ => ih

theorem keeps_resolveTypeOr {k : Builtin} {e : Option TypeExpr} : Keeps (resolveTypeOr ctx k e) := by
  cases e with
  | none => exact keeps_pure
  | some e => exact keeps_ask

theorem keeps_layoutEnum {i : Nat} {underlying : Option TypeExpr}
    {fields : List (Name × Option ValueExpr)} : Keeps (layoutEnum P ctx i underlying fields) :=
  keeps_resolveTypeOr.bind fun _ => keeps_layoutEnumFields.bind fun _ =>
    keeps_modify fun _ h => h.congr rfl rfl

theorem keeps_checkBitsetVariants {bits : Nat} {fields : List (Name × Int)} :
    Keeps (checkBitsetVariants bits fields) := by
  induction fields with
  | nil => exact keeps_pure
  | cons field fields ih => exact keeps_reportIf.bind fun _ => ih

theorem keeps_layoutBitset {i : Nat} {member : Name} {storage : Option TypeExpr} :
    Keeps (layoutBitset P ctx i member storage) := by
  refine keeps_ask.bind fun t => ?_
  split
  · exact keeps_resolveTypeOr.bind fun _ => keeps_reportIf.bind fun _ => keeps_get.bind fun _ =>
      keeps_checkBitsetVariants.bind fun _ => keeps_modify fun _ h => h.congr rfl rfl
  · exact keeps_report.bind fun _ => keeps_modify fun _ h => h.congr rfl rfl

/-! ### Structs and unions -/

/-- The computation, with a result of which something is known. -/
def Gives {γ : Type} (x : Resolve γ) (q : γ → State → Prop) : Prop :=
  Triple KeepsSizes Sized x fun c σ => Sized σ ∧ q c σ

theorem Gives.keeps {x : Resolve γ} {q : γ → State → Prop} (h : Gives x q) : Keeps x :=
  Triple.mono h (fun _ hs => hs) fun _ _ hs => hs.1

theorem gives_pure {c : γ} {q : γ → State → Prop} (h : ∀ σ, Sized σ → q c σ) : Gives (pure c) q :=
  triple_pure fun σ hσ => ⟨hσ, h σ hσ⟩

theorem Keeps.give {x : Resolve γ} {f : γ → Resolve δ} {r : δ → State → Prop} (hx : Keeps x)
    (hf : ∀ c, Gives (f c) r) : Gives (x >>= f) r :=
  Triple.bind hx hf

/-- What is read is the state that is there. -/
theorem gives_get {f : State → Resolve δ} {r : δ → State → Prop}
    (hf : ∀ σ, Sized σ → Triple KeepsSizes (· = σ) (f σ) fun c τ => Sized τ ∧ r c τ) :
    Gives (get >>= f) r := by
  refine Triple.bind (triple_get (q := fun c σ => Sized σ ∧ σ = c) fun σ hσ => ⟨hσ, rfl⟩) ?_
  intro σ τ hτ
  obtain ⟨hsized, rfl⟩ := hτ
  exact hf τ hsized τ rfl

theorem Gives.at {x : Resolve γ} {q : γ → State → Prop} (h : Gives x q) {σ : State} (hσ : Sized σ) :
    Triple KeepsSizes (· = σ) x fun c τ => Sized τ ∧ q c τ :=
  Triple.mono h (fun _ hs => hs ▸ hσ) fun _ _ hs => hs

/-- The member has the size and the alignment its type had when it was laid out. -/
def Reads (P : Program) (m : Member) : Prop :=
  ∃ σ, Sized σ ∧ m.size = σ.resolvedTypeSize P.pointerSize m.type ∧
    max m.align 1 = max (σ.resolvedTypeAlign P.pointerSize m.type) 1

theorem reads_member {hP : P.HasWord} {σ : State} (hσ : Sized σ) {x : Name} {t : ResolvedType} :
    Reads P (hσ.member hP x t) := ⟨σ, hσ, rfl, rfl⟩

theorem keeps_memberType {x : Name} {e : TypeExpr} : Keeps (memberType ctx x e) :=
  keeps_ask.bind fun _ => keeps_get.bind fun _ => keeps_ite keeps_fail keeps_pure

theorem gives_layoutFields (hP : P.HasWord) {isPacked : Bool} {fields : List (Name × TypeExpr)}
    {l : FieldsLayout} : Gives (layoutFields P ctx isPacked l fields) fun l' _ =>
      ∃ ms : List Member, (∀ m ∈ ms, Reads P m) ∧ ms.map Member.name = fields.map Prod.fst ∧
        l' = ms.foldl (FieldsLayout.addMember isPacked) l := by
  induction fields generalizing l with
  | nil => exact gives_pure fun _ _ => ⟨[], by simp, rfl, rfl⟩
  | cons field fields ih =>
    obtain ⟨x, e⟩ := field
    refine keeps_memberType.give fun t => gives_get fun σ hσ => ?_
    refine Triple.mono (ih.at hσ) (fun _ h => h) ?_
    rintro l' τ ⟨hτ, ms, hreads, hnames, rfl⟩
    exact ⟨hτ, hσ.member hP x t :: ms, List.forall_mem_cons.2 ⟨reads_member hσ, hreads⟩,
      congrArg (x :: ·) hnames, rfl⟩

/-- The layout of a struct is that of its members. -/
theorem gives_layoutStruct (hP : P.HasWord) {i : Nat} {isPacked : Bool}
    {fields : List (Name × TypeExpr)} : Gives (layoutStruct P ctx i isPacked fields) fun _ σ =>
      ∃ (ms : List Member) (τ : State), (∀ m ∈ ms, Reads P m) ∧
        ms.map Member.name = fields.map Prod.fst ∧
        σ = τ.withStruct i (structLayout isPacked ms) := by
  refine Triple.bind (gives_layoutFields hP) fun l => triple_modify ?_
  rintro τ ⟨hτ, ms, hreads, hnames, rfl⟩
  exact ⟨hτ.setStruct structLayout_ok, ms, τ, hreads, hnames, rfl⟩

theorem gives_layoutMembers (hP : P.HasWord) {members : List (Name × TypeExpr)}
    {l : MembersLayout} : Gives (layoutMembers P ctx l members) fun l' _ =>
      ∃ ms : List Member, (∀ m ∈ ms, Reads P m) ∧ ms.map Member.name = members.map Prod.fst ∧
        l'.members = l.members ++ ms.map (fun m => (m.name, m.type)) ∧
        l'.maxSize = ms.foldl (fun n m => max n m.size) l.maxSize ∧
        l'.maxAlign = ms.foldl (fun n m => max n m.align) l.maxAlign := by
  induction members generalizing l with
  | nil => exact gives_pure fun _ _ => ⟨[], by simp, rfl, by simp, rfl, rfl⟩
  | cons member members ih =>
    obtain ⟨x, e⟩ := member
    refine keeps_memberType.give fun t => gives_get fun σ hσ => ?_
    refine Triple.mono (ih.at hσ) (fun _ h => h) ?_
    rintro l' τ ⟨hτ, ms, hreads, hnames, hmembers, hsize, halign⟩
    refine ⟨hτ, hσ.member hP x t :: ms, List.forall_mem_cons.2 ⟨reads_member hσ, hreads⟩,
      congrArg (x :: ·) hnames, ?_, hsize, halign⟩
    rw [hmembers]
    simp [MembersLayout.add, Sized.member]

theorem unionLayout_ok {ms : List Member} :
    (unionLayout ms).size < 2 ^ 32 ∧ AlignOk (unionLayout ms).align :=
  ⟨alignUp_lt _ _, maxAlign_ok ms⟩

theorem payloadLayout_ok {info : UnionInfo} {ms : List Member} :
    (payloadLayout info ms).size < 2 ^ 32 ∧ AlignOk (payloadLayout info ms).align :=
  withPayload_ok (maxAlign_ok ms)

/-- The layout of a union is that of its members. -/
theorem gives_layoutUnion (hP : P.HasWord) {i : Nat} {members : List (Name × TypeExpr)} :
    Gives (layoutUnion P ctx i members) fun _ σ =>
      ∃ (ms : List Member) (τ : State), (∀ m ∈ ms, Reads P m) ∧
        ms.map Member.name = members.map Prod.fst ∧
        σ = τ.withUnion i (unionLayout ms) := by
  refine Triple.bind (gives_layoutMembers hP) fun l => triple_modify ?_
  obtain ⟨members', size, align⟩ := l
  rintro τ ⟨hτ, ms, hreads, hnames, rfl, rfl, rfl⟩
  exact ⟨hτ.setUnion unionLayout_ok, ms, τ, hreads, hnames, rfl⟩

/-! ### Tags and payloads -/

/-- The struct holds a payload of the type. -/
def HoldsPayload (P : Program) (σ : State) (t : ResolvedType) (i : Nat) : Prop :=
  ∃ τ, Sized τ ∧ σ.structs[i]?.elim 0 (·.size) = τ.resolvedTypeSize P.pointerSize t ∧
    max (σ.structs[i]?.elim 0 (·.align)) 1 = max (τ.resolvedTypeAlign P.pointerSize t) 1

theorem holdsPayload_struct {σ : State} (hσ : Sized σ) {i : Nat} :
    HoldsPayload P σ (.struct i) i := by
  refine ⟨σ, hσ, ?_, ?_⟩
  · rw [State.resolvedTypeSize]
    cases σ.structs[i]? <;> rfl
  · rw [State.resolvedTypeAlign]
    cases σ.structs[i]? <;> rfl

theorem reads_payload {σ : State} (hσ : Sized σ) {x : Name} {t : ResolvedType} {i : Nat}
    (h : HoldsPayload P σ t i) : Reads P (hσ.payload x t i) := h

theorem gives_newStruct : Gives newStruct fun i σ => i < σ.structs.length := by
  refine gives_get fun σ₀ hσ₀ => Triple.bind (q := fun _ σ => Sized σ ∧
    σ₀.structs.length < σ.structs.length) (triple_modify ?_) fun _ => triple_pure fun σ hσ => hσ
  rintro _ rfl
  exact ⟨hσ₀.pushStruct ⟨by decide, alignOk_one⟩, by simp⟩

theorem gives_wrapPayloadInStruct (hP : P.HasWord) {t : ResolvedType} :
    Gives (wrapPayloadInStruct P t) fun i σ => HoldsPayload P σ t i := by
  rw [wrapPayloadInStruct.eq_def]
  split
  · exact gives_pure fun σ hσ => holdsPayload_struct hσ
  · refine Triple.bind gives_newStruct fun i => ?_
    refine Triple.bind (triple_get (q := fun c σ => (Sized c ∧ i < c.structs.length) ∧ σ = c)
      fun σ hσ => ⟨hσ, rfl⟩) fun σ => Triple.bind (triple_modify (q := fun _ τ => Sized τ ∧
        HoldsPayload P τ t i) ?_) fun _ => triple_pure fun τ hτ => hτ
    rintro _ ⟨⟨hσ, hi⟩, rfl⟩
    refine ⟨hσ.setStruct ⟨hσ.size_lt hP t, hσ.align_ok hP t⟩, _, hσ, ?_, ?_⟩
    · simp [List.getElem?_set_self hi]
    · simp [List.getElem?_set_self hi]

theorem gives_payload (hP : P.HasWord) {x : Name} {e : TypeExpr} :
    Gives (payload P ctx x e) fun p σ => HoldsPayload P σ p.1 p.2 := by
  rw [payload.eq_def]
  split
  · exact keeps_newStruct.give fun i => (gives_layoutStruct hP).keeps.give fun _ =>
      gives_pure fun σ hσ => holdsPayload_struct hσ
  · exact keeps_memberType.give fun t => Triple.bind (gives_wrapPayloadInStruct hP) fun i =>
      triple_pure fun σ hσ => hσ

/-- The payloads of some variants. -/
def payloads (vs : List Variant) : List (Name × ResolvedType) :=
  vs.filterMap fun v => v.payload.map fun p => (v.name, p.1)

/-- The variants that are added have the members as payloads. -/
def Adds (P : Program) (l l' : VariantsLayout) (ms : List Member) (vs : List Variant) : Prop :=
  (∀ m ∈ ms, Reads P m) ∧ l'.variants = l.variants ++ vs ∧
    payloads vs = ms.map (fun m => (m.name, m.type)) ∧
    l'.maxSize = ms.foldl (fun n m => max n m.size) l.maxSize ∧
    l'.maxAlign = ms.foldl (fun n m => max n m.align) l.maxAlign

theorem Adds.cons {σ : State} (hσ : Sized σ) {l l' : VariantsLayout} {ms : List Member}
    {vs : List Variant} {x : Name} {t : ResolvedType} {i : Nat} (ht : HoldsPayload P σ t i)
    (h : Adds P (l.add σ x t i) l' ms vs) :
    Adds P l l' (hσ.payload x t i :: ms) (⟨x, some (t, i)⟩ :: vs) := by
  obtain ⟨hreads, hvariants, hpayloads, hsize, halign⟩ := h
  refine ⟨List.forall_mem_cons.2 ⟨reads_payload hσ ht, hreads⟩, ?_, ?_, hsize, halign⟩
  · rw [hvariants]
    simp [VariantsLayout.add]
  · rw [List.map_cons, ← hpayloads]
    rfl

theorem gives_layoutVariants (hP : P.HasWord) {members : List (Name × Option TypeExpr)}
    {l : VariantsLayout} : Gives (layoutVariants P ctx l members) fun l' _ =>
      ∃ ms vs, Adds P l l' ms vs ∧ vs.map Variant.name = members.map Prod.fst := by
  induction members generalizing l with
  | nil => exact gives_pure fun _ _ => ⟨[], [], ⟨by simp, by simp, rfl, rfl, rfl⟩, rfl⟩
  | cons member members ih =>
    obtain ⟨x, _ | e⟩ := member
    · refine Triple.mono ih (fun _ h => h) ?_
      rintro l' τ ⟨hτ, ms, vs, ⟨hreads, hvariants, hrest⟩, hnames⟩
      refine ⟨hτ, ms, ⟨x, none⟩ :: vs, ⟨hreads, ?_, hrest⟩, congrArg (x :: ·) hnames⟩
      rw [hvariants]
      simp
    · refine Triple.bind (gives_payload hP) fun p => ?_
      refine Triple.bind (triple_get (q := fun c σ => (Sized c ∧ HoldsPayload P c p.1 p.2) ∧ σ = c)
        fun σ hσ => ⟨hσ, rfl⟩) fun σ => ?_
      rintro _ ⟨⟨hσ, hp⟩, rfl⟩ l' τ hrun
      obtain ⟨hτ, ms, vs, hadds, hnames⟩ := ih _ hσ l' τ hrun
      exact ⟨hτ, _, _, hadds.cons hσ hp, congrArg (x :: ·) hnames⟩

/-- The layout of a tagged union is that of its payloads. -/
theorem gives_layoutTaggedUnion (hP : P.HasWord) {i : Nat}
    {members : List (Name × Option TypeExpr)} :
    Gives (layoutTaggedUnion P ctx i members) fun _ σ =>
      ∃ (ms : List Member) (vs : List Variant) (τ : State), (∀ m ∈ ms, Reads P m) ∧
        vs.map Variant.name = members.map Prod.fst ∧
        payloads vs = ms.map (fun m => (m.name, m.type)) ∧
        σ = τ.withUnion i (payloadLayout { isTagged := true, variants := vs } ms) := by
  refine Triple.bind (gives_layoutVariants hP) fun l => triple_modify ?_
  obtain ⟨variants, size, align⟩ := l
  rintro τ ⟨hτ, ms, vs, ⟨hreads, rfl, hpayloads, rfl, rfl⟩, hnames⟩
  exact ⟨hτ.setUnion payloadLayout_ok, ms, variants, τ, hreads, hnames, hpayloads, rfl⟩

/-! ### Error unions -/

theorem gives_errorVariants (hP : P.HasWord) {members : List ResolvedType} {l : VariantsLayout} :
    Gives (errorVariants P l members) fun l' _ =>
      ∃ ms vs, Adds P l l' ms vs ∧ ms.map Member.type = members := by
  induction members generalizing l with
  | nil => exact gives_pure fun _ _ => ⟨[], [], ⟨by simp, by simp, rfl, rfl, rfl⟩, rfl⟩
  | cons t members ih =>
    refine Triple.bind (gives_wrapPayloadInStruct hP) fun i => ?_
    refine Triple.bind (triple_get (q := fun c σ => (Sized c ∧ HoldsPayload P c t i) ∧ σ = c)
      fun σ hσ => ⟨hσ, rfl⟩) fun σ => ?_
    rintro _ ⟨⟨hσ, hp⟩, rfl⟩ l' τ hrun
    obtain ⟨hτ, ms, vs, hadds, htypes⟩ := ih _ hσ l' τ hrun
    exact ⟨hτ, _, _, hadds.cons hσ hp, congrArg (t :: ·) htypes⟩

/-- The variants of an error union. -/
def errorUnion (members : List ResolvedType) (isOptional : Bool) (t : ResolvedType) (i : Nat) :
    UnionInfo where
  isTagged := true
  isErrorUnion := true
  errorMemberTypes := members
  isOptional := isOptional
  variants := [⟨"Ok", none⟩, ⟨"Failed", some (t, i)⟩]

/-- The union of the members of an error type. -/
def innerUnion (members : List ResolvedType) (vs : List Variant) : UnionInfo where
  isTagged := true
  isErrorUnion := true
  errorMemberTypes := members
  variants := vs

/-- The type of the payload of a failure is the only member, or a union with the layout of the
    members. -/
def IsFailedPayload (P : Program) (members : List ResolvedType) (σ : State) (t : ResolvedType) :
    Prop :=
  members = [t] ∨ ∃ (ms : List Member) (vs : List Variant) (i : Nat), t = .union i ∧
    (∀ m ∈ ms, Reads P m) ∧ ms.map Member.type = members ∧
    payloads vs = ms.map (fun m => (m.name, m.type)) ∧
    σ.unions[i]? = some (payloadLayout (innerUnion members vs) ms)

theorem gives_failedPayload (hP : P.HasWord) {members : List ResolvedType} :
    Gives (failedPayload P members) fun t σ => IsFailedPayload P members σ t := by
  rw [failedPayload.eq_def]
  split
  · exact gives_pure fun σ _ => .inl rfl
  · refine Triple.bind (gives_errorVariants hP) fun l => ?_
    obtain ⟨variants, size, align⟩ := l
    rintro σ₀ ⟨hσ₀, ms, vs, ⟨hreads, rfl, hpayloads, rfl, rfl⟩, htypes⟩ t σ hrun
    obtain ⟨⟨i, σ₁⟩, hnew, hret⟩ := evalsBy_bind.1 hrun
    cases evalsBy_pure.1 hret
    obtain ⟨⟨σ₂, σ₃⟩, hget, hnew⟩ := evalsBy_bind.1 hnew
    cases evalsBy_pure.1 hget
    obtain ⟨⟨_, σ₄⟩, hmodify, hnew⟩ := evalsBy_bind.1 hnew
    cases evalsBy_pure.1 hmodify
    cases evalsBy_pure.1 hnew
    refine ⟨hσ₀.pushUnion (@payloadLayout_ok _ ms), .inr ⟨ms, variants, _, rfl, hreads, htypes,
      hpayloads, ?_⟩⟩
    simp
    rfl

/-- The layout of an error union is that of the payload of a failure. -/
theorem gives_synthesizeErrorUnion (hP : P.HasWord) {members : List ResolvedType}
    {isOptional : Bool} : Gives (synthesizeErrorUnion P members isOptional) fun info _ =>
      ∃ (failed : Member) (i : Nat) (τ : State), Reads P failed ∧
        IsFailedPayload P members τ failed.type ∧
        info = payloadLayout (errorUnion members isOptional failed.type i) [failed] := by
  refine Triple.bind (gives_failedPayload hP) fun t => ?_
  rintro σ₀ ⟨hσ₀, hfailed⟩ info σ hrun
  obtain ⟨⟨i, σ₁⟩, hwrap, hrun⟩ := evalsBy_bind.1 hrun
  obtain ⟨hσ₁, hholds⟩ := gives_wrapPayloadInStruct hP σ₀ hσ₀ i σ₁ hwrap
  obtain ⟨⟨σ₂, σ₃⟩, hget, hrun⟩ := evalsBy_bind.1 hrun
  cases evalsBy_pure.1 hget
  cases evalsBy_pure.1 hrun
  refine ⟨hσ₁, hσ₁.payload "Failed" t i, i, σ₀, reads_payload hσ₁ hholds, hfailed, ?_⟩
  have hmax : max (σ.structs[i]?.elim 1 (·.align)) 1 =
      max (max 1 (σ.structs[i]?.elim 0 (·.align))) 1 := by
    cases σ.structs[i]? with
    | none => rfl
    | some s => simp [max_comm]
  have hsize : max 0 (σ.structs[i]?.elim 0 (·.size)) = σ.structs[i]?.elim 0 (·.size) :=
    Nat.zero_max _
  show _ = UnionInfo.withPayload _ (max 0 (σ.structs[i]?.elim 0 (·.size))) _
  rw [hsize]
  exact withPayload_congr hmax

theorem keeps_synthesizeErrorUnion (hP : P.HasWord) {members : List ResolvedType}
    {isOptional : Bool} : Triple KeepsSizes Sized (synthesizeErrorUnion P members isOptional)
      fun info σ => Sized σ ∧ info.size < 2 ^ 32 ∧ AlignOk info.align := by
  refine Triple.mono (gives_synthesizeErrorUnion hP) (fun _ h => h) ?_
  rintro info σ ⟨hσ, failed, i, τ, -, -, rfl⟩
  exact ⟨hσ, payloadLayout_ok⟩

theorem keeps_internErrorUnion (hP : P.HasWord) {members : List ResolvedType} {isOptional : Bool} :
    Keeps (internErrorUnion P members isOptional) := by
  refine keeps_reportIf.bind fun _ => keeps_get.bind fun σ => ?_
  split
  · exact keeps_pure
  · refine keeps_emptyUnion.bind fun i => Triple.bind (keeps_synthesizeErrorUnion hP) fun info => ?_
    refine Triple.bind (triple_modify (q := fun _ => Sized) fun σ hσ => hσ.1.setUnion hσ.2) fun _ => ?_
    exact Keeps.bind (keeps_modify fun _ h => h.congr rfl rfl) fun _ => keeps_pure

theorem keeps_errorMembers {members : List Name} : Keeps (errorMembers ctx members) := by
  induction members with
  | nil => exact keeps_pure
  | cons x members ih =>
    exact keeps_ask.bind fun _ => keeps_get.bind fun _ => keeps_reportIf.bind fun _ =>
      ih.bind fun _ => keeps_pure

theorem keeps_resolveOptionalErrorType (hP : P.HasWord) {inner : TypeExpr} :
    Keeps (resolveOptionalErrorType P ctx inner) := by
  refine Keeps.bind ?_ fun t => keeps_get.bind fun σ => ?_
  · rw [optionalInner.eq_def]
    split
    · exact keeps_ask
    · exact keeps_ask
  · rw [makeOptional.eq_def]
    split
    · exact keeps_pure
    · split
      · exact keeps_ite (keeps_ite keeps_pure (keeps_internErrorUnion hP))
          (keeps_ite (keeps_internErrorUnion hP) keeps_fail)
      · exact keeps_fail
    · exact keeps_ite (keeps_internErrorUnion hP) keeps_fail

/-! ### Traits, names and instances -/

theorem keeps_resolveSignature {es : List TypeExpr} : Keeps (resolveSignature ctx es) := by
  induction es with
  | nil => exact keeps_pure
  | cons e es ih => exact keeps_ask.bind fun _ => ih

theorem keeps_composeTraits {composing seen : List ResolvedType} {composed : List Name} :
    Keeps (composeTraits ctx composing seen composed) := by
  induction composed generalizing seen with
  | nil => exact keeps_pure
  | cons x composed ih =>
    refine keeps_ask.bind fun t => ?_
    split
    · exact ih
    · exact keeps_reportIf.bind fun _ => keeps_reportIf.bind fun _ => ih
    · exact keeps_report.bind fun _ => ih

theorem keeps_layoutTrait {x : Name} {i : Nat} {signature : List TypeExpr} {composed : List Name} :
    Keeps (layoutTrait P ctx x i signature composed) :=
  keeps_resolveSignature.bind fun _ => keeps_composeTraits.bind fun _ =>
    keeps_modify fun _ h => h.congr rfl rfl

theorem keeps_resolveFinalShallow {x : Name} : Keeps (resolveFinalShallow P ctx x) := by
  rw [resolveFinalShallow]
  split
  · exact keeps_fail
  · exact keeps_pure
  · refine keeps_get.bind fun σ => ?_
    split
    · exact keeps_pure
    · refine keeps_ite keeps_fail (keeps_ite keeps_fail (keeps_ask.bind fun t => ?_))
      exact Keeps.bind (keeps_modify fun _ h => h.congr rfl rfl) fun _ => keeps_pure

theorem keeps_resolveFinalFull (hP : P.HasWord) {x : Name} : Keeps (resolveFinalFull P ctx x) := by
  refine keeps_get.bind fun σ => ?_
  split
  · exact keeps_ite keeps_pure (keeps_ite keeps_fail
      ((gives_layoutStruct hP).keeps.bind fun _ => keeps_pure))
  · exact keeps_ite keeps_pure (keeps_layoutEnum.bind fun _ => keeps_pure)
  · exact keeps_ite keeps_pure (keeps_ite keeps_fail
      ((gives_layoutUnion hP).keeps.bind fun _ => keeps_pure))
  · exact keeps_ite keeps_pure (keeps_ite keeps_fail
      ((gives_layoutTaggedUnion hP).keeps.bind fun _ => keeps_pure))
  · exact keeps_ite keeps_pure (keeps_ite keeps_fail
      (keeps_layoutBitset.bind fun _ => keeps_pure))
  · exact keeps_ite keeps_pure (keeps_ite keeps_pure
      (keeps_layoutTrait.bind fun _ => keeps_pure))
  · exact keeps_resolveFinalShallow

theorem keeps_preallocateAggregate {e : TypeExpr} : Keeps (preallocateAggregate e) := by
  rw [preallocateAggregate.eq_def]
  split
  · exact keeps_newStruct.bind fun _ => keeps_pure
  · exact keeps_newEnum.bind fun _ => keeps_pure
  · exact keeps_emptyUnion.bind fun _ => keeps_pure
  · exact keeps_emptyUnion.bind fun _ => keeps_pure
  · exact keeps_newBitset.bind fun _ => keeps_pure
  · exact keeps_pure

theorem keeps_instanceType (hP : P.HasWord) {e : TypeExpr} {slot : Option ResolvedType} :
    Keeps (instanceType P ctx e slot) := by
  rw [instanceType.eq_def]
  split
  · refine Keeps.bind ?_ fun _ => keeps_pure
    rw [layoutPreallocated.eq_def]
    split
    · exact (gives_layoutStruct hP).keeps
    · exact keeps_layoutEnum
    · exact (gives_layoutUnion hP).keeps
    · exact (gives_layoutTaggedUnion hP).keeps
    · exact keeps_layoutBitset
    · exact keeps_pure
  · exact keeps_ask

theorem keeps_instantiateGenericType (hP : P.HasWord) {x : Name} {d : TypeDecl}
    {args : List GenericArgValue} : Keeps (instantiateGenericType P ctx x d args) := by
  refine keeps_get.bind fun σ => ?_
  split
  · exact keeps_pure
  · split
    · exact keeps_pure
    · exact keeps_fail
    · refine keeps_preallocateAggregate.bind fun slot => (keeps_instanceType hP).bind fun t => ?_
      exact Keeps.bind (keeps_modify fun _ h => h.congr rfl rfl) fun _ => keeps_pure

theorem keeps_resolveTypeName {x : Name} : Keeps (resolveTypeName P ctx x) := by
  rw [resolveTypeName.eq_def]
  split
  · exact keeps_pure
  · exact keeps_ite keeps_resolveFinalShallow keeps_fail
  · exact keeps_fail

theorem keeps_resolveGenericArg {x : Name} {k : ParamKind} {a : GenericArg} :
    Keeps (resolveGenericArg P ctx x k a) := by
  rw [resolveGenericArg.eq_def]
  split
  · exact keeps_ask.bind fun _ => keeps_pure
  · exact keeps_resolveTypeName.bind fun _ => keeps_pure
  · exact keeps_evalIntegerConstExpr.bind fun _ => keeps_reportIf.bind fun _ => keeps_pure
  · exact keeps_report.bind fun _ => keeps_pure

theorem keeps_resolveGenericArgs {x : Name} {params : List GenericParam} {args : List GenericArg} :
    Keeps (resolveGenericArgs P ctx x params args) := by
  induction params generalizing args with
  | nil => exact keeps_pure
  | cons p params ih =>
    cases args with
    | nil => exact keeps_pure
    | cons a args =>
      exact keeps_resolveGenericArg.bind fun _ => ih.bind fun _ => keeps_pure

theorem keeps_resolveNamedTypeShallow (hP : P.HasWord) {x : Name} {args : List GenericArg} :
    Keeps (resolveNamedTypeShallow P ctx x args) := by
  rw [resolveNamedTypeShallow.eq_def]
  split
  · exact keeps_pure
  · refine keeps_ite keeps_resolveFinalShallow (keeps_ite keeps_fail ?_)
    refine keeps_resolveGenericArgs.bind fun vs => ?_
    split
    · exact keeps_instantiateGenericType hP
    · exact keeps_pure
  · exact keeps_fail

theorem keeps_resolveTypes {es : List TypeExpr} : Keeps (resolveTypes ctx es) := by
  induction es with
  | nil => exact keeps_pure
  | cons e es ih => exact keeps_ask.bind fun _ => ih.bind fun _ => keeps_pure

theorem keeps_resolveTypeImpl (hP : P.HasWord) {e : TypeExpr} :
    Keeps (resolveTypeImpl P ctx e) := by
  cases e with
  | builtin k => exact keeps_pure
  | named x args => exact keeps_resolveNamedTypeShallow hP
  | pointer e => exact keeps_ask.bind fun _ => keeps_pure
  | slice e => exact keeps_ask.bind fun _ => keeps_pure
  | array size e =>
    cases size with
    | none => exact keeps_fail
    | some size =>
      exact keeps_ask.bind fun _ => keeps_arrayLenExprValue.bind fun _ => keeps_get.bind fun _ =>
        keeps_ite keeps_fail keeps_pure
  | struct isPacked fields =>
    exact keeps_newStruct.bind fun _ => (gives_layoutStruct hP).keeps.bind fun _ => keeps_pure
  | enum underlying fields => exact keeps_newEnum.bind fun _ => keeps_layoutEnum.bind fun _ => keeps_pure
  | union members =>
    exact keeps_emptyUnion.bind fun _ => (gives_layoutUnion hP).keeps.bind fun _ => keeps_pure
  | taggedUnion members =>
    exact keeps_emptyUnion.bind fun _ => (gives_layoutTaggedUnion hP).keeps.bind fun _ => keeps_pure
  | bitset member storage =>
    exact keeps_newBitset.bind fun _ => keeps_layoutBitset.bind fun _ => keeps_pure
  | function params returns =>
    exact keeps_resolveTypes.bind fun _ => keeps_resolveTypes.bind fun _ => keeps_internFunctionType
  | trait signature composed => exact keeps_fail
  | error members => exact keeps_errorMembers.bind fun _ => keeps_internErrorUnion hP
  | optionalError inner => exact keeps_resolveOptionalErrorType hP

theorem keeps_resolveFieldType {e : TypeExpr} : Keeps (resolveFieldType P ctx e) := by
  rw [resolveFieldType.eq_def]
  split
  · split
    · exact keeps_pure
    · exact keeps_ite keeps_ask keeps_ask
    · exact keeps_fail
  · exact keeps_ask

/-- Every job keeps the sizes and the alignments. -/
theorem keeps_resolve (hP : P.HasWord) (a : Context × Job) : Keeps (resolve P a) := by
  obtain ⟨ctx, e | e | x⟩ := a
  · exact keeps_resolveTypeImpl hP
  · exact keeps_resolveFieldType
  · exact keeps_resolveFinalFull hP

/-! ## Runs -/

/-- A part of the resolver ends with a result and a state. -/
def Run (P : Program) (x : Resolve γ) (σ : State) (c : γ) (τ : State) : Prop :=
  Evals (step (resolve P)) (x σ) (c, τ)

theorem sized_of_returns (hP : P.HasWord) {r : (Context × Job) × State} {b : ResolvedType × State}
    (h : Returns (step (resolve P)) r b) : KeepsSizes r b := by
  refine Returns.induct (Q := KeepsSizes) ?_ h
  rintro ⟨a, σ⟩ ⟨t, τ⟩ hb hσ
  exact keeps_resolve hP a σ hσ t τ (hb.mono fun _ _ h => h.2)

/-- What is known of a part of the resolver holds of its runs. -/
theorem Gives.run (hP : P.HasWord) {x : Resolve γ} {q : γ → State → Prop} (h : Gives x q)
    {σ τ : State} {c : γ} (hσ : Sized σ) (hrun : Run P x σ c τ) : q c τ := by
  obtain ⟨n, hn⟩ := hrun
  have hby : EvalsBy KeepsSizes (x σ) (c, τ) :=
    evalsBy_of_eval (R := KeepsSizes) (fun _ _ hb => sized_of_returns hP ⟨n, hb⟩) hn
  exact (h σ hσ c τ hby).2

theorem sized_declareTypes : Sized (declareTypes P) := by
  constructor
  · intro s hs
    obtain ⟨d, -, rfl⟩ := List.mem_map.1 hs
    exact ⟨Nat.two_pow_pos 32, alignOk_one⟩
  · intro u hu
    obtain ⟨d, -, rfl⟩ := List.mem_map.1 hu
    exact ⟨Nat.two_pow_pos 32, alignOk_one⟩

theorem keeps_resolveAll {jobs : List Job} : Keeps (resolveAll jobs) := by
  induction jobs with
  | nil => exact keeps_pure
  | cons job jobs ih => exact keeps_ask.bind fun _ => ih.bind fun _ => keeps_pure

/-- The states the resolver comes to have their sizes and alignments in range. -/
theorem sized_resolveAll (hP : P.HasWord) {jobs : List Job} {ts : List ResolvedType} {σ : State}
    (h : Run P (resolveAll jobs) (declareTypes P) ts σ) : Sized σ := by
  have hgives : Gives (resolveAll jobs) fun _ σ => Sized σ :=
    Triple.mono keeps_resolveAll (fun _ h => h) fun _ _ h => ⟨h, h⟩
  exact hgives.run hP sized_declareTypes h

end

/-- Two arrays of `3000000000` bytes. -/
def hugePair : Program where
  decls := [("Pair", ⟨[], .struct false
    [("a", .array (some (.literal 3000000000)) (.builtin .u8)),
      ("b", .array (some (.literal 3000000000)) (.builtin .u8))]⟩)]
  pointerSize := 8
  nodup := by decide

def hugeMember (x : Name) : Member where
  name := x
  type := .array (.builtin .u8) 3000000000
  size := 3000000000
  align := 1
  size_lt := by decide
  align_ok := alignOk_one

end Mirage.Types
