import Mirage.Lang.TypeTermination

/-!
# Resolved types are finite

A type that stores aggregates by value is finite when no aggregate stores itself, directly or
through others. As long as nothing is reported, the resolver only makes such types: an aggregate
is recorded when all it stores is laid out (`Inv`), and a layout that is done never changes
(`Grows`). The one gap is the members of error types, which are not checked: a member that is an
alias of a tagged union is taken without its layout.
-/

namespace Mirage.Types

open Calls Stateful

/-! ## What a type stores by value -/

/-- A type without an error in it. -/
def ResolvedType.Proper : ResolvedType → Prop
  | .invalid => False
  | .pointer t | .slice t | .array t _ => t.Proper
  | _ => True

/-- An aggregate whose layout depends on others. -/
inductive Slot
  | struct (i : Nat)
  | union (i : Nat)
  deriving DecidableEq, Repr

/-- The aggregate that is stored where a type is stored by value. -/
def ResolvedType.held : ResolvedType → Option Slot
  | .struct i => some (.struct i)
  | .union i => some (.union i)
  | .array t _ => t.held
  | _ => none

def StructInfo.contents (s : StructInfo) : List ResolvedType := s.fields.map (·.type)

def UnionInfo.contents (u : UnionInfo) : List ResolvedType :=
  u.members.map Prod.snd ++ u.variants.filterMap fun v => v.payload.map fun p => .struct p.2

namespace State

variable (σ : State)

/-- The types an aggregate stores by value. -/
def contents : Slot → List ResolvedType
  | .struct i => σ.structs[i]?.elim [] (·.contents)
  | .union i => σ.unions[i]?.elim [] (·.contents)

def Exists : Slot → Prop
  | .struct i => i < σ.structs.length
  | .union i => i < σ.unions.length

def Done : Slot → Prop
  | .struct i => ∃ s, σ.structs[i]? = some s ∧ s.layoutDone = true
  | .union i => ∃ u, σ.unions[i]? = some u ∧ u.layoutDone = true

/-- The first aggregate stores the second. -/
def Holds (a b : Slot) : Prop := ∃ t ∈ σ.contents a, t.held = some b

/-- Every aggregate is made of proper types and none stores itself, directly or through others. -/
structure IsFinite : Prop where
  proper : ∀ a, ∀ t ∈ σ.contents a, t.Proper
  acc : ∀ a, Acc (fun b a => σ.Holds a b) a

/-- A proper type whose aggregate has a slot. -/
def Known (t : ResolvedType) : Prop := t.Proper ∧ ∀ a, t.held = some a → σ.Exists a

/-- A proper type that can be stored by value. -/
def Complete (t : ResolvedType) : Prop := t.Proper ∧ ∀ a, t.held = some a → σ.Done a

end State

theorem State.Done.exists {σ : State} {a : Slot} (h : σ.Done a) : σ.Exists a := by
  cases a with
  | struct i | union i =>
    obtain ⟨_, h, _⟩ := h
    exact (List.getElem?_eq_some_iff.1 h).1

theorem State.Complete.known {σ : State} {t : ResolvedType} (h : σ.Complete t) : σ.Known t :=
  ⟨h.1, fun a ha => (h.2 a ha).exists⟩

theorem complete_of_not_isIncomplete {σ : State} {t : ResolvedType} (ht : σ.Known t)
    (h : σ.isIncomplete t = false) : σ.Complete t := by
  obtain ⟨hp, ht⟩ := ht
  refine ⟨hp, ?_⟩
  clear hp
  induction t with
  | struct i | union i =>
    intro a ha
    cases ha
    have hx := List.getElem?_eq_getElem (ht _ rfl)
    rw [State.isIncomplete, hx, Option.any_some, Bool.not_eq_false'] at h
    exact ⟨_, hx, h⟩
  | array t n ih => exact ih h ht
  | _ => exact fun a ha => nomatch ha

/-! ## How a state changes -/

/-- What a part of the resolver does to a state in which nothing is reported: layouts that are
    done stay as they are, and the slots that are laid out were not there or are allowed. -/
structure Grows (A : Slot → Prop) (σ τ : State) : Prop where
  clean : σ.diagnostics = []
  structs : σ.structs.length ≤ τ.structs.length
  unions : σ.unions.length ≤ τ.unions.length
  struct_done : ∀ (i : Nat) (s : StructInfo), σ.structs[i]? = some s → s.layoutDone = true → τ.structs[i]? = some s
  union_done : ∀ (i : Nat) (u : UnionInfo), σ.unions[i]? = some u → u.layoutDone = true → τ.unions[i]? = some u
  allowed : ∀ a, σ.Exists a → ¬ σ.Done a → τ.Done a → A a

section

variable {A A' : Slot → Prop} {σ τ υ : State} {a : Slot} {t : ResolvedType}

theorem Grows.refl (h : σ.diagnostics = []) : Grows A σ σ :=
  ⟨h, le_refl _, le_refl _, fun _ _ h _ => h, fun _ _ h _ => h, fun _ _ hn h => absurd h hn⟩

theorem Grows.exists (h : Grows A σ τ) (ha : σ.Exists a) : τ.Exists a := by
  cases a with
  | struct i => exact Nat.lt_of_lt_of_le ha h.structs
  | union i => exact Nat.lt_of_lt_of_le ha h.unions

theorem Grows.done (h : Grows A σ τ) (ha : σ.Done a) : τ.Done a := by
  cases a with
  | struct i =>
    obtain ⟨s, hs, hd⟩ := ha
    exact ⟨s, h.struct_done i s hs hd, hd⟩
  | union i =>
    obtain ⟨u, hu, hd⟩ := ha
    exact ⟨u, h.union_done i u hu hd, hd⟩

theorem Grows.known (h : Grows A σ τ) (ht : σ.Known t) : τ.Known t :=
  ⟨ht.1, fun a ha => h.exists (ht.2 a ha)⟩

theorem Grows.complete (h : Grows A σ τ) (ht : σ.Complete t) : τ.Complete t :=
  ⟨ht.1, fun a ha => h.done (ht.2 a ha)⟩

theorem Grows.trans (h : Grows A σ τ) (h' : Grows A τ υ) : Grows A σ υ where
  clean := h.clean
  structs := h.structs.trans h'.structs
  unions := h.unions.trans h'.unions
  struct_done i s hs hd := h'.struct_done i s (h.struct_done i s hs hd) hd
  union_done i u hu hd := h'.union_done i u (h.union_done i u hu hd) hd
  allowed a ha hn hd := by
    by_cases hτ : τ.Done a
    · exact h.allowed a ha hn hτ
    · exact h'.allowed a (h.exists ha) hτ hd

theorem Grows.mono (h : Grows A σ τ) (hA : ∀ a, σ.Exists a → A a → A' a) : Grows A' σ τ :=
  { h with allowed := fun a ha hn hd => hA a ha (h.allowed a ha hn hd) }

/-- A slot that is being laid out by the part of the resolver at hand. -/
def Pending (A : Slot → Prop) (a : Slot) (σ : State) : Prop := σ.Exists a ∧ ¬ σ.Done a ∧ ¬ A a

theorem Grows.pending (h : Grows A σ τ) (ha : Pending A a σ) : Pending A a τ :=
  ⟨h.exists ha.1, fun hd => ha.2.2 (h.allowed a ha.1 ha.2.1 hd), ha.2.2⟩

end

/-! ## The invariant -/

/-- The name is that of an aggregate, or of an alias for something else than a name. -/
def Program.Direct (P : Program) (x : Name) : Prop :=
  ∀ d, P.find x = some d → d.params.isEmpty → ∀ y args, d.type ≠ .named y args

/-- What holds of every state in which nothing is reported. -/
structure Inv (P : Program) (σ : State) : Prop where
  contents : ∀ a, ∀ t ∈ σ.contents a, σ.Complete t
  empty : ∀ a, ¬ σ.Done a → σ.contents a = []
  acc : ∀ a, Acc (fun b a => σ.Holds a b) a
  members : ∀ (i : Nat) (u : UnionInfo), σ.unions[i]? = some u → ∀ t ∈ u.errorMemberTypes, σ.Complete t
  errors : ∀ k i, σ.errorUnions.lookup k = some i → σ.Done (.union i)
  aliases : ∀ x t, σ.aliases.lookup x = some t →
    σ.Known t ∧ (P.Direct x → ∀ i, t = .union i → σ.Done (.union i))
  instances : ∀ k t, σ.genericTypeInstances.lookup k = some t → σ.Known t
  declared : ∀ x t, P.slot x = some t → σ.Known t

theorem Inv.isFinite {P : Program} {σ : State} (h : Inv P σ) : σ.IsFinite :=
  ⟨fun a t ht => (h.contents a t ht).1, h.acc⟩

/-- A slot is laid out: what it stores is complete, and nothing else changes. -/
theorem Inv.record {P : Program} {σ τ : State} {a : Slot} (h : Inv P σ) (hn : ¬ σ.Done a)
    (hexists : ∀ b, σ.Exists b → τ.Exists b) (ha : τ.Done a)
    (hcontents : ∀ t ∈ τ.contents a, σ.Complete t)
    (hdone : ∀ b, b ≠ a → (τ.Done b ↔ σ.Done b))
    (hother : ∀ b, b ≠ a → τ.contents b = σ.contents b)
    (hmembers : ∀ (i : Nat) (u : UnionInfo), τ.unions[i]? = some u →
      ∀ t ∈ u.errorMemberTypes, σ.Complete t)
    (herrors : τ.errorUnions = σ.errorUnions) (haliases : τ.aliases = σ.aliases)
    (hinstances : τ.genericTypeInstances = σ.genericTypeInstances) : Inv P τ := by
  have hne : ∀ b, σ.Done b → b ≠ a := fun b hb hba => hn (hba ▸ hb)
  have hdone' : ∀ b, σ.Done b → τ.Done b := fun b hb => (hdone b (hne b hb)).2 hb
  have hcomplete : ∀ t, σ.Complete t → τ.Complete t := fun t ht =>
    ⟨ht.1, fun b hb => hdone' b (ht.2 b hb)⟩
  have hknown : ∀ t, σ.Known t → τ.Known t := fun t ht =>
    ⟨ht.1, fun b hb => hexists b (ht.2 b hb)⟩
  have hall : ∀ b, ∀ t ∈ τ.contents b, σ.Complete t := by
    intro b t ht
    by_cases hb : b = a
    · exact hcontents t (hb ▸ ht)
    · exact h.contents b t (hother b hb ▸ ht)
  -- what was laid out before stores nothing new
  have hacc : ∀ b, b ≠ a → Acc (fun b a => τ.Holds a b) b := by
    intro b hb
    induction h.acc b with
    | intro b _ ih =>
      refine .intro b fun c ⟨t, ht, hc⟩ => ?_
      rw [hother b hb] at ht
      exact ih c ⟨t, ht, hc⟩ (hne c ((h.contents b t ht).2 c hc))
  exact
    { contents := fun b t ht => hcomplete t (hall b t ht)
      empty := fun b hb => by
        by_cases hba : b = a
        · exact absurd (hba ▸ ha) hb
        · rw [hother b hba]
          exact h.empty b fun hd => hb ((hdone b hba).2 hd)
      acc := fun b => .intro b fun c ⟨t, ht, hc⟩ => hacc c (hne c ((hall b t ht).2 c hc))
      members := fun i u hu t ht => hcomplete t (hmembers i u hu t ht)
      errors := fun k i hk => hdone' _ (h.errors k i (herrors ▸ hk))
      aliases := fun x t hx =>
        have := h.aliases x t (haliases ▸ hx)
        ⟨hknown t this.1, fun hd i hi => hdone' _ (this.2 hd i hi)⟩
      instances := fun k t hk => hknown t (h.instances k t (hinstances ▸ hk))
      declared := fun x t hx => hknown t (h.declared x t hx) }

/-! ## What a job gives -/

/-- The names in the place of error members are direct. -/
def TypeExpr.NamesDirect (P : Program) : TypeExpr → Prop
  | .error members => ∀ x ∈ members, P.Direct x
  | .optionalError (.named x _) => P.Direct x
  | _ => True

/-- All names in the place of error members, also in the parts, are direct. -/
def TypeExpr.ErrorsDirect (P : Program) (e : TypeExpr) : Prop :=
  ∀ e', Relation.ReflTransGen TypeExpr.Child e' e → e'.NamesDirect P

def Job.ErrorsDirect (P : Program) : Job → Prop
  | .type e | .field e => e.ErrorsDirect P
  | .full _ => True

def Program.ErrorsDirect (P : Program) : Prop :=
  ∀ x d, P.find x = some d → d.type.ErrorsDirect P

theorem TypeExpr.ErrorsDirect.child {P : Program} {e e' : TypeExpr} (h : e.ErrorsDirect P)
    (he : Child e' e) : e'.ErrorsDirect P := fun e'' h' => h e'' (h'.tail he)

theorem TypeExpr.ErrorsDirect.of_children {P : Program} {e : TypeExpr} (he : e.NamesDirect P)
    (h : ∀ e', Child e' e → e'.ErrorsDirect P) : e.ErrorsDirect P := by
  intro e'' h''
  obtain rfl | ⟨e', h', hchild⟩ := Relation.ReflTransGen.cases_tail h''
  · exact he
  · exact h e' hchild e'' h'

/-- The types a context mentions are known. -/
structure Context.Ok (ctx : Context) (σ : State) : Prop where
  env : ∀ x t, (x, .type t) ∈ ctx.env → σ.Known t
  slots : ∀ key t, .generic key (some t) ∈ ctx.stack → σ.Known t

theorem Context.Ok.plain {ctx : Context} {σ : State} (h : ctx.Ok σ) : ctx.plain.Ok σ :=
  ⟨fun _ _ hx => absurd hx List.not_mem_nil, h.slots⟩

theorem Context.Ok.indirect {ctx : Context} {σ : State} (h : ctx.Ok σ) : ctx.indirect.Ok σ :=
  ⟨h.env, h.slots⟩

/-- The slots of the declarations that are not being laid out. -/
def Context.allowed (P : Program) (ctx : Context) : Slot → Prop
  | .struct i => ∃ x, P.slot x = some (.struct i) ∧ .struct x ∉ ctx.stack
  | .union i => ∃ x, P.slot x = some (.union i) ∧ .union x ∉ ctx.stack

/-- What a job gives: a type of an aggregate with its slot, and a union that is laid out where
    it is not merely named. -/
def Result (P : Program) (job : Job) (t : ResolvedType) (σ : State) : Prop :=
  σ.Known t ∧ match job with
    | .type e => (∀ x args, e ≠ .named x args) → ∀ i, t = .union i → σ.Done (.union i)
    | .field _ => True
    | .full x => P.Direct x → ∀ i, t = .union i → σ.Done (.union i)

/-- The specification of the calls of the resolver. -/
def Answers (P : Program) (r : (Context × Job) × State) (b : ResolvedType × State) : Prop :=
  r.1.2.ErrorsDirect P ∧ (r.2.diagnostics = [] → Inv P r.2 ∧ r.1.1.Ok r.2) →
    b.2.diagnostics = [] →
      Inv P b.2 ∧ Grows (r.1.1.allowed P) r.2 b.2 ∧ Result P r.1.2 b.1 b.2

/-- From a state with the invariant and the first property, unless something is reported, the
    part of the resolver keeps the invariant, lays out only what is allowed, and gives a value
    with the second property. -/
def Meets (P : Program) (A : Slot → Prop) {γ : Type} (p : State → Prop) (x : Resolve γ)
    (q : γ → State → Prop) : Prop :=
  ∀ σ, (σ.diagnostics = [] → Inv P σ ∧ p σ) → Triple (Answers P) (· = σ) x
    fun c τ => τ.diagnostics = [] → Inv P τ ∧ Grows A σ τ ∧ q c τ

/-- The property is not lost. -/
def Stable (A : Slot → Prop) (p : State → Prop) : Prop := ∀ σ τ, Grows A σ τ → p σ → p τ

section

variable {A A' : Slot → Prop} {p p' : State → Prop} {t : ResolvedType}

theorem Stable.and (h : Stable A p) (h' : Stable A p') : Stable A fun σ => p σ ∧ p' σ :=
  fun σ τ hg hp => ⟨h σ τ hg hp.1, h' σ τ hg hp.2⟩

theorem Stable.anti (h : Stable A p) (hA : ∀ a, A' a → A a) : Stable A' p :=
  fun σ τ hg => h σ τ (hg.mono fun a _ => hA a)

theorem stable_const {c : Prop} : Stable A fun _ => c := fun _ _ _ h => h

theorem stable_known : Stable A (·.Known t) := fun _ _ h => h.known

theorem stable_complete : Stable A (·.Complete t) := fun _ _ h => h.complete

theorem stable_done {a : Slot} : Stable A (·.Done a) := fun _ _ h => h.done

theorem stable_forall {ι : Type} {p : ι → State → Prop} (h : ∀ i, Stable A (p i)) :
    Stable A fun σ => ∀ i, p i σ := fun σ τ hg hp i => h i σ τ hg (hp i)

theorem stable_imp {c : Prop} (h : Stable A p) : Stable A fun σ => c → p σ :=
  fun σ τ hg hp hc => h σ τ hg (hp hc)

theorem stable_pending {a : Slot} : Stable A (Pending A a) := fun _ _ h => h.pending

theorem stable_ok {ctx : Context} : Stable A ctx.Ok :=
  fun _ _ h hok => ⟨fun x t hx => h.known (hok.env x t hx), fun k t hk => h.known (hok.slots k t hk)⟩

end

section

variable {P : Program} {A A' : Slot → Prop} {γ δ : Type} {p : State → Prop}

theorem meets_pure {c : γ} {q : γ → State → Prop} (h : ∀ σ, Inv P σ → p σ → q c σ) :
    Meets P A p (pure c) q := by
  intro σ hσ
  refine triple_pure ?_
  rintro _ rfl hd
  obtain ⟨hinv, hp⟩ := hσ hd
  exact ⟨hinv, .refl hd, h _ hinv hp⟩

theorem meets_get : Meets P A p get fun c σ => c = σ ∧ p σ := by
  intro σ hσ
  refine triple_get ?_
  rintro _ rfl hd
  obtain ⟨hinv, hp⟩ := hσ hd
  exact ⟨hinv, .refl hd, rfl, hp⟩

theorem meets_modify {f : State → State} {q : State → Prop}
    (hf : ∀ σ, (f σ).diagnostics = σ.diagnostics)
    (h : ∀ σ, σ.diagnostics = [] → Inv P σ → p σ → Inv P (f σ) ∧ Grows A σ (f σ) ∧ q (f σ)) :
    Meets P A p (modify f) fun _ => q := by
  intro σ hσ
  refine triple_modify ?_
  rintro _ rfl hd
  rw [hf] at hd
  obtain ⟨hinv, hp⟩ := hσ hd
  exact h _ hd hinv hp

theorem meets_report {d : Diagnostic} {q : Unit → State → Prop} : Meets P A p (report d) q := by
  intro σ hσ
  refine triple_modify ?_
  intro τ _ hd
  exact absurd hd (List.append_ne_nil_of_right_ne_nil _ (List.cons_ne_nil _ _))

theorem Meets.bind {x : Resolve γ} {f : γ → Resolve δ} {q : γ → State → Prop}
    {r : δ → State → Prop} (hx : Meets P A p x q) (hf : ∀ c, Meets P A (q c) (f c) r) :
    Meets P A p (x >>= f) r := by
  intro σ hσ
  refine (hx σ hσ).bind fun c τ hτ d υ hυ hd => ?_
  obtain ⟨hinv, hgrow, hr⟩ := hf c τ (fun h => ⟨(hτ h).1, (hτ h).2.2⟩) τ rfl d υ hυ hd
  exact ⟨hinv, (hτ hgrow.clean).2.1.trans hgrow, hr⟩

theorem Meets.mono {x : Resolve γ} {p' : State → Prop} {q q' : γ → State → Prop}
    (hx : Meets P A p x q) (hp : ∀ σ, Inv P σ → p' σ → p σ)
    (hq : ∀ c σ, Inv P σ → q c σ → q' c σ) : Meets P A p' x q' := by
  intro σ hσ s hs c τ hτ hd
  have := hx σ (fun h => ⟨(hσ h).1, hp σ (hσ h).1 (hσ h).2⟩) s hs c τ hτ hd
  exact ⟨this.1, this.2.1, hq c τ this.1 this.2.2⟩

theorem Meets.pre {x : Resolve γ} {p' : State → Prop} {q : γ → State → Prop}
    (hx : Meets P A p x q) (hp : ∀ σ, Inv P σ → p' σ → p σ) : Meets P A p' x q :=
  hx.mono hp fun _ _ _ h => h

theorem Meets.post {x : Resolve γ} {q q' : γ → State → Prop}
    (hx : Meets P A p x q) (hq : ∀ c σ, Inv P σ → q c σ → q' c σ) : Meets P A p x q' :=
  hx.mono (fun _ _ h => h) hq

/-- What is not lost is still there afterwards. -/
theorem Meets.keep {x : Resolve γ} {q : γ → State → Prop} (hx : Meets P A p x q)
    (hs : Stable A p) : Meets P A p x fun c σ => p σ ∧ q c σ := by
  intro σ hσ s hs' c τ hτ hd
  obtain ⟨hinv, hgrow, hq⟩ := hx σ hσ s hs' c τ hτ hd
  exact ⟨hinv, hgrow, hs σ τ hgrow (hσ hgrow.clean).2, hq⟩

theorem Meets.andThen {x : Resolve γ} {f : γ → Resolve δ} {q : γ → State → Prop}
    {r : δ → State → Prop} (hx : Meets P A p x q) (hs : Stable A p)
    (hf : ∀ c, Meets P A (fun σ => p σ ∧ q c σ) (f c) r) : Meets P A p (x >>= f) r :=
  (hx.keep hs).bind hf

theorem Meets.weaken {x : Resolve γ} {q : γ → State → Prop} (hx : Meets P A p x q)
    (hA : ∀ a, A a → A' a) : Meets P A' p x q := by
  intro σ hσ s hs c τ hτ hd
  obtain ⟨hinv, hgrow, hq⟩ := hx σ hσ s hs c τ hτ hd
  exact ⟨hinv, hgrow.mono fun a _ => hA a, hq⟩

theorem meets_fail {d : Diagnostic} {q : ResolvedType → State → Prop} :
    Meets P A p (fail d) q :=
  meets_report (q := fun _ _ => False).bind fun _ => meets_pure fun _ _ h => h.elim

theorem meets_ite {c : Prop} [Decidable c] {x y : Resolve γ} {q : γ → State → Prop}
    (hx : c → Meets P A p x q) (hy : ¬ c → Meets P A p y q) :
    Meets P A p (if c then x else y) q := by
  split
  · exact hx ‹_›
  · exact hy ‹_›

theorem meets_reportIf {c : Prop} [Decidable c] {d : Diagnostic} :
    Meets P A p (reportIf c d) fun _ _ => ¬ c :=
  meets_ite (fun _ => meets_report) fun h => meets_pure fun _ _ _ => h

theorem meets_ask {ctx : Context} {job : Job} (hjob : job.ErrorsDirect P)
    (hok : ∀ σ, p σ → ctx.Ok σ) : Meets P (ctx.allowed P) p (ask (ctx, job)) (Result P job) := by
  intro σ hσ
  refine triple_ask ?_
  rintro _ rfl t τ h hd
  exact h ⟨hjob, fun hd => ⟨(hσ hd).1, hok _ (hσ hd).2⟩⟩ hd

/-! ## Changes of the state -/

/-- The invariant depends on some of the tables only. -/
theorem Inv.congr {σ τ : State} (h : Inv P σ) (hstructs : τ.structs = σ.structs)
    (hunions : τ.unions = σ.unions) (haliases : τ.aliases = σ.aliases)
    (hinstances : τ.genericTypeInstances = σ.genericTypeInstances)
    (herrors : τ.errorUnions = σ.errorUnions) : Inv P τ := by
  cases σ
  cases τ
  cases hstructs
  cases hunions
  cases haliases
  cases hinstances
  cases herrors
  exact ⟨h.contents, h.empty, h.acc, h.members, h.errors, h.aliases, h.instances, h.declared⟩

theorem Grows.of_eq {σ τ : State} (hd : σ.diagnostics = []) (hstructs : τ.structs = σ.structs)
    (hunions : τ.unions = σ.unions) : Grows A σ τ where
  clean := hd
  structs := hstructs ▸ le_refl _
  unions := hunions ▸ le_refl _
  struct_done _ _ h _ := hstructs ▸ h
  union_done _ _ h _ := hunions ▸ h
  allowed a _ hn h := by
    refine absurd ?_ hn
    cases a with
    | struct i =>
      rw [State.Done, hstructs] at h
      exact h
    | union i =>
      rw [State.Done, hunions] at h
      exact h

theorem meets_modify_other {f : State → State} (hf : ∀ σ, (f σ).diagnostics = σ.diagnostics)
    (hstructs : ∀ σ, (f σ).structs = σ.structs) (hunions : ∀ σ, (f σ).unions = σ.unions)
    (haliases : ∀ σ, (f σ).aliases = σ.aliases)
    (hinstances : ∀ σ, (f σ).genericTypeInstances = σ.genericTypeInstances)
    (herrors : ∀ σ, (f σ).errorUnions = σ.errorUnions) :
    Meets P A p (modify f) fun _ _ => True :=
  meets_modify hf fun σ hd h _ =>
    ⟨h.congr (hstructs σ) (hunions σ) (haliases σ) (hinstances σ) (herrors σ),
      .of_eq hd (hstructs σ) (hunions σ), trivial⟩

theorem meets_setEnum {i : Nat} {info : EnumInfo} :
    Meets P A p (setEnum i info) fun _ _ => True :=
  meets_modify_other (fun _ => rfl) (fun _ => rfl) (fun _ => rfl) (fun _ => rfl) (fun _ => rfl)
    fun _ => rfl

theorem meets_setBitset {i : Nat} {info : BitsetInfo} :
    Meets P A p (setBitset i info) fun _ _ => True :=
  meets_modify_other (fun _ => rfl) (fun _ => rfl) (fun _ => rfl) (fun _ => rfl) (fun _ => rfl)
    fun _ => rfl

theorem meets_setTrait {i : Nat} : Meets P A p (setTrait i) fun _ _ => True :=
  meets_modify_other (fun _ => rfl) (fun _ => rfl) (fun _ => rfl) (fun _ => rfl) (fun _ => rfl)
    fun _ => rfl

theorem meets_newEnum : Meets P A p newEnum fun _ _ => True := by
  refine meets_get.bind fun σ => Meets.bind (q := fun _ _ => True) ?_ fun _ =>
    meets_pure fun _ _ _ => trivial
  exact meets_modify_other (fun _ => rfl) (fun _ => rfl) (fun _ => rfl) (fun _ => rfl)
    (fun _ => rfl) fun _ => rfl

theorem meets_newBitset : Meets P A p newBitset fun _ _ => True := by
  refine meets_get.bind fun σ => Meets.bind (q := fun _ _ => True) ?_ fun _ =>
    meets_pure fun _ _ _ => trivial
  exact meets_modify_other (fun _ => rfl) (fun _ => rfl) (fun _ => rfl) (fun _ => rfl)
    (fun _ => rfl) fun _ => rfl

theorem known_of_held_none {t : ResolvedType} {σ : State} (hp : t.Proper) (h : t.held = none) :
    σ.Known t := ⟨hp, fun a ha => by simp [h] at ha⟩

theorem meets_internFunctionType {ps rs : List ResolvedType} :
    Meets P A p (internFunctionType ps rs) fun t σ =>
      σ.Known t ∧ ∀ i, t = .union i → σ.Done (.union i) := by
  refine meets_get.bind fun σ => ?_
  split
  · exact meets_pure fun _ _ _ => ⟨known_of_held_none trivial rfl, fun _ h => nomatch h⟩
  · refine Meets.bind (q := fun _ _ => True) (meets_modify_other (fun _ => rfl) (fun _ => rfl)
      (fun _ => rfl) (fun _ => rfl) (fun _ => rfl) fun _ => rfl) fun _ => ?_
    exact meets_pure fun _ _ _ => ⟨known_of_held_none trivial rfl, fun _ h => nomatch h⟩

/-! ### New slots -/

/-- A new slot that is not laid out changes nothing for the others. -/
theorem Inv.append {σ τ : State} (h : Inv P σ) (hcontents : ∀ a, τ.contents a = σ.contents a)
    (hdone : ∀ a, τ.Done a ↔ σ.Done a) (hexists : ∀ a, σ.Exists a → τ.Exists a)
    (hmembers : ∀ (i : Nat) (u : UnionInfo), τ.unions[i]? = some u →
      ∀ t ∈ u.errorMemberTypes, σ.Complete t)
    (haliases : τ.aliases = σ.aliases)
    (hinstances : τ.genericTypeInstances = σ.genericTypeInstances)
    (herrors : τ.errorUnions = σ.errorUnions) : Inv P τ := by
  have hcomplete : ∀ t, σ.Complete t → τ.Complete t := fun t ht =>
    ⟨ht.1, fun b hb => (hdone b).2 (ht.2 b hb)⟩
  have hknown : ∀ t, σ.Known t → τ.Known t := fun t ht =>
    ⟨ht.1, fun b hb => hexists b (ht.2 b hb)⟩
  have hholds : ∀ a b, τ.Holds a b ↔ σ.Holds a b := fun a b => by
    rw [State.Holds, State.Holds, hcontents]
  exact
    { contents := fun a t ht => hcomplete t (h.contents a t (hcontents a ▸ ht))
      empty := fun a ha => by
        rw [hcontents]
        exact h.empty a fun hd => ha ((hdone a).2 hd)
      acc := fun a => by
        simp only [hholds]
        exact h.acc a
      members := fun i u hu t ht => hcomplete t (hmembers i u hu t ht)
      errors := fun k i hk => (hdone _).2 (h.errors k i (herrors ▸ hk))
      aliases := fun x t hx =>
        have := h.aliases x t (haliases ▸ hx)
        ⟨hknown t this.1, fun hd i hi => (hdone _).2 (this.2 hd i hi)⟩
      instances := fun k t hk => hknown t (h.instances k t (hinstances ▸ hk))
      declared := fun x t hx => hknown t (h.declared x t hx) }

section

variable {σ : State}

theorem getElem?_append_new {α : Type} {l : List α} {x y : α} {i : Nat}
    (h : (l ++ [x])[i]? = some y) : l[i]? = some y ∨ i = l.length ∧ y = x := by
  rw [List.getElem?_append] at h
  split at h
  · exact .inl h
  · obtain ⟨hi, hy⟩ := List.getElem?_eq_some_iff.1 h
    simp only [List.length_cons, List.length_nil] at hi
    refine .inr ⟨by omega, ?_⟩
    simpa using hy.symm

theorem getElem?_append_old {α : Type} {l : List α} {x y : α} {i : Nat} (h : l[i]? = some y) :
    (l ++ [x])[i]? = some y := by
  rw [List.getElem?_append_left (List.getElem?_eq_some_iff.1 h).1, h]

theorem elim_append_new {α β : Type} {l : List α} {x : α} {f : α → List β} {i : Nat}
    (hx : f x = []) : (l ++ [x])[i]?.elim [] f = l[i]?.elim [] f := by
  cases h : l[i]? with
  | some y => rw [getElem?_append_old h]
  | none =>
    cases h' : (l ++ [x])[i]? with
    | none => rfl
    | some y =>
      obtain h' | ⟨_, rfl⟩ := getElem?_append_new h'
      · simp [h] at h'
      · exact hx

/-- The state with a new struct. -/
def State.pushStruct (σ : State) (s : StructInfo) : State :=
  { σ with structs := σ.structs ++ [s] }

/-- The state with a new union. -/
def State.pushUnion (σ : State) (u : UnionInfo) : State :=
  { σ with unions := σ.unions ++ [u] }

theorem done_pushStruct {a : Slot} : (σ.pushStruct {}).Done a ↔ σ.Done a := by
  cases a with
  | struct i =>
    constructor
    · rintro ⟨s, hs, hd⟩
      obtain h | ⟨_, rfl⟩ := getElem?_append_new hs
      · exact ⟨s, h, hd⟩
      · cases hd
    · rintro ⟨s, hs, hd⟩
      exact ⟨s, getElem?_append_old hs, hd⟩
  | union i => exact Iff.rfl

theorem done_pushUnion {a : Slot} : (σ.pushUnion {}).Done a ↔ σ.Done a := by
  cases a with
  | struct i => exact Iff.rfl
  | union i =>
    constructor
    · rintro ⟨s, hs, hd⟩
      obtain h | ⟨_, rfl⟩ := getElem?_append_new hs
      · exact ⟨s, h, hd⟩
      · cases hd
    · rintro ⟨s, hs, hd⟩
      exact ⟨s, getElem?_append_old hs, hd⟩

theorem contents_pushStruct {a : Slot} : (σ.pushStruct {}).contents a = σ.contents a := by
  cases a with
  | struct i => exact elim_append_new rfl
  | union i => rfl

theorem contents_pushUnion {a : Slot} : (σ.pushUnion {}).contents a = σ.contents a := by
  cases a with
  | struct i => rfl
  | union i => exact elim_append_new rfl

theorem exists_pushStruct {a : Slot} {s : StructInfo} (h : σ.Exists a) :
    (σ.pushStruct s).Exists a := by
  cases a with
  | struct i =>
    have : i < σ.structs.length := h
    simp only [State.Exists, State.pushStruct, List.length_append, List.length_singleton]
    omega
  | union i => exact h

theorem exists_pushUnion {a : Slot} {u : UnionInfo} (h : σ.Exists a) :
    (σ.pushUnion u).Exists a := by
  cases a with
  | struct i => exact h
  | union i =>
    have : i < σ.unions.length := h
    simp only [State.Exists, State.pushUnion, List.length_append, List.length_singleton]
    omega

theorem Inv.pushStruct (h : Inv P σ) : Inv P (σ.pushStruct {}) :=
  h.append (fun _ => contents_pushStruct) (fun _ => done_pushStruct) (fun _ => exists_pushStruct)
    h.members rfl rfl rfl

theorem Inv.pushUnion (h : Inv P σ) : Inv P (σ.pushUnion {}) := by
  refine h.append (fun _ => contents_pushUnion) (fun _ => done_pushUnion)
    (fun _ => exists_pushUnion) (fun i u hu t ht => ?_) rfl rfl rfl
  obtain hu | ⟨_, rfl⟩ := getElem?_append_new hu
  · exact h.members i u hu t ht
  · cases ht

theorem Grows.pushStruct (hd : σ.diagnostics = []) : Grows A σ (σ.pushStruct {}) where
  clean := hd
  structs := by simp [State.pushStruct]
  unions := le_refl _
  struct_done i s hs _ := getElem?_append_old hs
  union_done _ _ h _ := h
  allowed _ _ hn h := absurd (done_pushStruct.1 h) hn

theorem Grows.pushUnion (hd : σ.diagnostics = []) (u : UnionInfo) : Grows A σ (σ.pushUnion u) where
  clean := hd
  structs := le_refl _
  unions := by simp [State.pushUnion]
  struct_done _ _ h _ := h
  union_done i s hs _ := getElem?_append_old hs
  allowed a ha hn h := by
    refine absurd ?_ hn
    cases a with
    | struct i => exact h
    | union i =>
      obtain ⟨u', hu, hd⟩ := h
      obtain hu | ⟨rfl, _⟩ := getElem?_append_new hu
      · exact ⟨u', hu, hd⟩
      · exact absurd ha (Nat.lt_irrefl _)

/-- The allowed slots are slots of the state. -/
def Real (P : Program) (A : Slot → Prop) : Prop := ∀ σ a, Inv P σ → A a → σ.Exists a

theorem meets_newStruct {f : Nat → Resolve γ} {q : γ → State → Prop} (hA : Real P A)
    (hs : Stable A p)
    (hf : ∀ i, Meets P (fun a => A a ∨ a = .struct i)
      (fun σ => p σ ∧ Pending A (.struct i) σ) (f i) q) : Meets P A p (newStruct >>= f) q := by
  intro σ hσ s hs' c τ hτ hd
  rw [hs'] at hτ
  have hτ : EvalsBy (Answers P) (f σ.structs.length (σ.pushStruct {})) (c, τ) := hτ
  have hnew : ¬ σ.Exists (.struct σ.structs.length) := Nat.lt_irrefl _
  have hpre : (σ.pushStruct {}).diagnostics = [] → Inv P (σ.pushStruct {}) ∧
      p (σ.pushStruct {}) ∧ Pending A (.struct σ.structs.length) (σ.pushStruct {}) := by
    intro (hd : σ.diagnostics = [])
    obtain ⟨hinv, hp⟩ := hσ hd
    refine ⟨hinv.pushStruct, hs _ _ (.pushStruct hd) hp, ?_, fun hd => ?_, fun h => ?_⟩
    · simp [State.Exists, State.pushStruct]
    · exact hnew (done_pushStruct.1 hd).exists
    · exact hnew (hA σ _ hinv h)
  obtain ⟨hinv, hgrow, hq⟩ := hf _ _ hpre _ rfl c τ hτ hd
  have hclean : σ.diagnostics = [] := hgrow.clean
  refine ⟨hinv, ((Grows.pushStruct hclean).trans hgrow).mono ?_, hq⟩
  rintro a ha (h | rfl)
  · exact h
  · exact absurd ha hnew

theorem meets_newUnion {f : Nat → Resolve γ} {q : γ → State → Prop} (hA : Real P A)
    (hs : Stable A p)
    (hf : ∀ i, Meets P (fun a => A a ∨ a = .union i)
      (fun σ => p σ ∧ Pending A (.union i) σ) (f i) q) : Meets P A p (newUnion {} >>= f) q := by
  intro σ hσ s hs' c τ hτ hd
  rw [hs'] at hτ
  have hτ : EvalsBy (Answers P) (f σ.unions.length (σ.pushUnion {})) (c, τ) := hτ
  have hnew : ¬ σ.Exists (.union σ.unions.length) := Nat.lt_irrefl _
  have hpre : (σ.pushUnion {}).diagnostics = [] → Inv P (σ.pushUnion {}) ∧
      p (σ.pushUnion {}) ∧ Pending A (.union σ.unions.length) (σ.pushUnion {}) := by
    intro (hd : σ.diagnostics = [])
    obtain ⟨hinv, hp⟩ := hσ hd
    refine ⟨hinv.pushUnion, hs _ _ (.pushUnion hd _) hp, ?_, fun hd => ?_, fun h => ?_⟩
    · simp [State.Exists, State.pushUnion]
    · exact hnew (done_pushUnion.1 hd).exists
    · exact hnew (hA σ _ hinv h)
  obtain ⟨hinv, hgrow, hq⟩ := hf _ _ hpre _ rfl c τ hτ hd
  have hclean : σ.diagnostics = [] := hgrow.clean
  refine ⟨hinv, ((Grows.pushUnion hclean _).trans hgrow).mono ?_, hq⟩
  rintro a ha (h | rfl)
  · exact h
  · exact absurd ha hnew

/-! ### Layouts that are done -/

theorem meets_setStruct {i : Nat} {info : StructInfo} (hinfo : info.layoutDone = true)
    (hp : ∀ σ, p σ → Pending A (.struct i) σ ∧ ∀ t ∈ info.contents, σ.Complete t) :
    Meets P (fun a => A a ∨ a = .struct i) p (setStruct i info)
      fun _ σ => σ.Done (.struct i) := by
  refine meets_modify (fun _ => rfl) fun σ hd h hσ => ?_
  obtain ⟨⟨hex, hn, hA⟩, hcontents⟩ := hp σ hσ
  have hex : i < σ.structs.length := hex
  have hget : (σ.structs.set i info)[i]? = some info := by
    rw [List.getElem?_set_self hex]
  have hother : ∀ j, j ≠ i → (σ.structs.set i info)[j]? = σ.structs[j]? := fun j hj =>
    List.getElem?_set_ne hj.symm
  have hne : ∀ j, Slot.struct j ≠ .struct i → j ≠ i := fun j hj h => hj (h ▸ rfl)
  have hdone : ∀ b, b ≠ .struct i →
      (({ σ with structs := σ.structs.set i info } : State).Done b ↔ σ.Done b) := by
    intro b hb
    cases b with
    | struct j => simp only [State.Done, hother j (hne j hb)]
    | union j => exact Iff.rfl
  have hd' : ({ σ with structs := σ.structs.set i info } : State).Done (.struct i) :=
    ⟨info, hget, hinfo⟩
  refine ⟨h.record hn ?_ hd' ?_ hdone ?_ h.members rfl rfl rfl, ⟨hd, ?_, le_refl _, ?_,
    fun _ _ h _ => h, ?_⟩, hd'⟩
  · intro b hb
    cases b with
    | struct j => simpa [State.Exists] using hb
    | union j => exact hb
  · intro t ht
    refine hcontents t ?_
    simpa only [State.contents, hget, Option.elim_some] using ht
  · intro b hb
    cases b with
    | struct j => simp only [State.contents, hother j (hne j hb)]
    | union j => rfl
  · simp
  · intro j s hs hsd
    have hj : j ≠ i := fun hj => hn (hj ▸ ⟨s, hs, hsd⟩)
    exact (hother j hj).trans hs
  · intro b _ hbn hbd
    by_cases hb : b = .struct i
    · exact .inr hb
    · exact absurd ((hdone b hb).1 hbd) hbn

theorem meets_setUnion {i : Nat} {info : UnionInfo}
    (hp : ∀ σ, p σ → Pending A (.union i) σ ∧ info.layoutDone = true ∧
      (∀ t ∈ info.contents, σ.Complete t) ∧ ∀ t ∈ info.errorMemberTypes, σ.Complete t) :
    Meets P (fun a => A a ∨ a = .union i) p (setUnion i info) fun _ σ => σ.Done (.union i) := by
  refine meets_modify (fun _ => rfl) fun σ hd h hσ => ?_
  obtain ⟨⟨hex, hn, hA⟩, hinfo, hcontents, hmembers⟩ := hp σ hσ
  have hex : i < σ.unions.length := hex
  have hget : (σ.unions.set i info)[i]? = some info := by
    rw [List.getElem?_set_self hex]
  have hother : ∀ j, j ≠ i → (σ.unions.set i info)[j]? = σ.unions[j]? := fun j hj =>
    List.getElem?_set_ne hj.symm
  have hne : ∀ j, Slot.union j ≠ .union i → j ≠ i := fun j hj h => hj (h ▸ rfl)
  have hdone : ∀ b, b ≠ .union i →
      (({ σ with unions := σ.unions.set i info } : State).Done b ↔ σ.Done b) := by
    intro b hb
    cases b with
    | struct j => exact Iff.rfl
    | union j => simp only [State.Done, hother j (hne j hb)]
  have hd' : ({ σ with unions := σ.unions.set i info } : State).Done (.union i) :=
    ⟨info, hget, hinfo⟩
  refine ⟨h.record hn ?_ hd' ?_ hdone ?_ ?_ rfl rfl rfl, ⟨hd, le_refl _, ?_,
    fun _ _ h _ => h, ?_, ?_⟩, hd'⟩
  · intro b hb
    cases b with
    | struct j => exact hb
    | union j => simpa [State.Exists] using hb
  · intro t ht
    refine hcontents t ?_
    simpa only [State.contents, hget, Option.elim_some] using ht
  · intro b hb
    cases b with
    | struct j => rfl
    | union j => simp only [State.contents, hother j (hne j hb)]
  · intro j u hu
    by_cases hj : j = i
    · subst hj
      obtain rfl := Option.some.inj (hget.symm.trans hu)
      exact hmembers
    · exact h.members j u ((hother j hj).symm.trans hu)
  · simp
  · intro j u hu hud
    have hj : j ≠ i := fun hj => hn (hj ▸ ⟨u, hu, hud⟩)
    exact (hother j hj).trans hu
  · intro b _ hbn hbd
    by_cases hb : b = .union i
    · exact .inr hb
    · exact absurd ((hdone b hb).1 hbd) hbn

/-- A union that is made with its layout. -/
theorem meets_newUnion_done {info : UnionInfo} (hinfo : info.layoutDone = true)
    (hp : ∀ σ, p σ → (∀ t ∈ info.contents, σ.Complete t) ∧
      ∀ t ∈ info.errorMemberTypes, σ.Complete t) :
    Meets P A p (newUnion info) fun i σ => σ.Done (.union i) := by
  intro σ hσ s hs c τ hτ hd
  rw [hs] at hτ
  obtain ⟨rfl, rfl⟩ : σ.unions.length = c ∧ σ.pushUnion info = τ := Prod.mk.inj (evalsBy_pure.1 hτ)
  have hd : σ.diagnostics = [] := hd
  obtain ⟨hinv, hσ⟩ := hσ hd
  obtain ⟨hcontents, hmembers⟩ := hp σ hσ
  have hnew : ∀ j, Slot.union j ≠ .union σ.unions.length → j ≠ σ.unions.length :=
    fun j hj h => hj (h ▸ rfl)
  have hget : (σ.pushUnion info).unions[σ.unions.length]? = some info := List.getElem?_concat_length
  have hother : ∀ j, j ≠ σ.unions.length →
      (σ.pushUnion info).unions[j]? = σ.unions[j]? := by
    intro j hj
    cases h : σ.unions[j]? with
    | some u => exact getElem?_append_old h
    | none =>
      refine Option.eq_none_iff_forall_ne_some.2 fun u hu => ?_
      obtain hu | ⟨rfl, _⟩ := getElem?_append_new hu
      · simp [h] at hu
      · exact hj rfl
  refine ⟨hinv.record (a := .union σ.unions.length) ?_ (fun _ => exists_pushUnion)
    ⟨info, hget, hinfo⟩ ?_ ?_ ?_ ?_ rfl rfl rfl, .pushUnion hd info, info, hget, hinfo⟩
  · exact fun h => absurd h.exists (Nat.lt_irrefl _)
  · intro t ht
    refine hcontents t ?_
    simpa only [State.contents, hget, Option.elim_some] using ht
  · intro b hb
    cases b with
    | struct j => exact Iff.rfl
    | union j => simp only [State.Done, hother j (hnew j hb)]
  · intro b hb
    cases b with
    | struct j => rfl
    | union j => simp only [State.contents, hother j (hnew j hb)]
  · intro j u hu
    obtain hu | ⟨_, rfl⟩ := getElem?_append_new hu
    · exact hinv.members j u hu
    · exact hmembers

end

end

end Mirage.Types
