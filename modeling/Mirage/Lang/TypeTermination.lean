import Mirage.Lang.TypeResolver
import Mathlib.Data.Finset.Card
import Mathlib.Data.Set.Finite.List
import Mathlib.Tactic.Common

/-!
# Where type resolution ends

Nested calls of the resolver either go on to a part of the type expression, with the same
guards, or set a guard that was not set (`resolve_makes`). Guards of declarations are finitely
many, so an endless sequence of nested calls sets endlessly many guards of instances or
enums: resolution ends exactly where it comes to finitely many of those.
-/

namespace Mirage.Types

open Calls Stateful

/-! ## The parts of a type expression -/

/-- The first type expression is a direct part of the second. -/
inductive TypeExpr.Child : TypeExpr → TypeExpr → Prop
  | arg {x : Name} {args : List GenericArg} {e : TypeExpr} (h : .type e ∈ args) :
    Child e (.named x args)
  | pointer (e : TypeExpr) : Child e (.pointer e)
  | slice (e : TypeExpr) : Child e (.slice e)
  | array (size : Option ValueExpr) (e : TypeExpr) : Child e (.array size e)
  | field {isPacked : Bool} {fields : List (Name × TypeExpr)} {x : Name} {e : TypeExpr}
    (h : (x, e) ∈ fields) : Child e (.struct isPacked fields)
  | underlying (e : TypeExpr) (fields : List (Name × Option ValueExpr)) :
    Child e (.enum (some e) fields)
  | member {members : List (Name × TypeExpr)} {x : Name} {e : TypeExpr} (h : (x, e) ∈ members) :
    Child e (.union members)
  | variant {members : List (Name × Option TypeExpr)} {x : Name} {e : TypeExpr}
    (h : (x, some e) ∈ members) : Child e (.taggedUnion members)
  | storage (x : Name) (e : TypeExpr) : Child e (.bitset x (some e))
  | param {params returns : List TypeExpr} {e : TypeExpr} (h : e ∈ params) :
    Child e (.function params returns)
  | return {params returns : List TypeExpr} {e : TypeExpr} (h : e ∈ returns) :
    Child e (.function params returns)
  | signature {signature : List TypeExpr} {composed : List Name} {e : TypeExpr}
    (h : e ∈ signature) : Child e (.trait signature composed)
  | inner (e : TypeExpr) : Child e (.optionalError e)

theorem TypeExpr.Child.sizeOf_lt {e e' : TypeExpr} (h : Child e' e) : sizeOf e' < sizeOf e := by
  cases h with
  | arg h | field h | member h | variant h =>
    have := List.sizeOf_lt_of_mem h
    simp only [named.sizeOf_spec, struct.sizeOf_spec, union.sizeOf_spec, taggedUnion.sizeOf_spec,
      Prod.mk.sizeOf_spec, Option.some.sizeOf_spec, GenericArg.type.sizeOf_spec] at this ⊢
    omega
  | param h | «return» h | signature h =>
    have := List.sizeOf_lt_of_mem h
    simp only [function.sizeOf_spec, trait.sizeOf_spec] at this ⊢
    omega
  | pointer | slice | array | underlying | storage | inner =>
    simp only [pointer.sizeOf_spec, slice.sizeOf_spec, array.sizeOf_spec, enum.sizeOf_spec,
      bitset.sizeOf_spec, optionalError.sizeOf_spec, Option.some.sizeOf_spec]
    omega

/-! ## Which calls are made -/

section

variable {P : Program} {ctx : Context} {S : Context × Job → Prop}

theorem makes_report {d : Diagnostic} : Makes S (report d) := makes_modify

theorem makes_fail {d : Diagnostic} : Makes S (fail d) :=
  makes_report.bind fun _ => makes_pure

theorem makes_ite {γ : Type} {c : Prop} [Decidable c] {x y : Resolve γ} (hx : c → Makes S x)
    (hy : ¬ c → Makes S y) : Makes S (if c then x else y) := by
  split
  · exact hx ‹_›
  · exact hy ‹_›

theorem makes_reportIf {c : Prop} [Decidable c] {d : Diagnostic} : Makes S (reportIf c d) :=
  makes_ite (fun _ => makes_report) fun _ => makes_pure

theorem makes_newStruct : Makes S newStruct :=
  makes_get.bind fun _ => makes_modify.bind fun _ => makes_pure

theorem makes_newUnion {info : UnionInfo} : Makes S (newUnion info) :=
  makes_get.bind fun _ => makes_modify.bind fun _ => makes_pure

theorem makes_newEnum : Makes S newEnum :=
  makes_get.bind fun _ => makes_modify.bind fun _ => makes_pure

theorem makes_newBitset : Makes S newBitset :=
  makes_get.bind fun _ => makes_modify.bind fun _ => makes_pure

theorem makes_internFunctionType {ps rs : List ResolvedType} :
    Makes S (internFunctionType ps rs) := by
  refine makes_get.bind fun σ => ?_
  split
  · exact makes_pure
  · exact makes_modify.bind fun _ => makes_pure

theorem makes_resolveTypeOr {k : Builtin} {e : Option TypeExpr}
    (h : ∀ e', e = some e' → S (ctx, .type e')) : Makes S (resolveTypeOr ctx k e) := by
  cases e with
  | none => exact makes_pure
  | some e => exact makes_ask (h e rfl)

theorem makes_memberType {x : Name} {e : TypeExpr} (h : S (ctx, .field e)) :
    Makes S (memberType ctx x e) :=
  (makes_ask h).bind fun _ => makes_get.bind fun _ =>
    makes_ite (fun _ => makes_fail) fun _ => makes_pure

theorem makes_layoutFields {isPacked : Bool} {fields : List (Name × TypeExpr)} {l : FieldsLayout}
    (h : ∀ x e, (x, e) ∈ fields → S (ctx, .field e)) :
    Makes S (layoutFields P ctx isPacked l fields) := by
  induction fields generalizing l with
  | nil => exact makes_pure
  | cons field fields ih =>
    refine (makes_memberType (h _ _ List.mem_cons_self)).bind fun t => makes_get.bind fun σ => ?_
    exact ih fun x e he => h x e (List.mem_cons_of_mem _ he)

theorem makes_layoutStruct {i : Nat} {isPacked : Bool} {fields : List (Name × TypeExpr)}
    (h : ∀ x e, (x, e) ∈ fields → S (ctx, .field e)) :
    Makes S (layoutStruct P ctx i isPacked fields) :=
  (makes_layoutFields h).bind fun _ => makes_modify

theorem makes_layoutUnion {i : Nat} {members : List (Name × TypeExpr)}
    (h : ∀ x e, (x, e) ∈ members → S (ctx, .field e)) :
    Makes S (layoutUnion P ctx i members) := by
  refine Makes.bind ?_ fun l => makes_modify
  generalize ({} : MembersLayout) = l
  induction members generalizing l with
  | nil => exact makes_pure
  | cons member members ih =>
    refine (makes_memberType (h _ _ List.mem_cons_self)).bind fun t => makes_get.bind fun σ => ?_
    exact ih (fun x e he => h x e (List.mem_cons_of_mem _ he)) _

theorem makes_wrapPayloadInStruct {t : ResolvedType} : Makes S (wrapPayloadInStruct P t) := by
  rw [wrapPayloadInStruct.eq_def]
  split
  · exact makes_pure
  · exact makes_newStruct.bind fun _ => makes_get.bind fun _ => makes_modify.bind fun _ =>
      makes_pure

theorem makes_payload {x : Name} {e : TypeExpr} (h : S (ctx, .field e))
    (hfields : ∀ e', TypeExpr.Child e' e → S (ctx, .field e')) : Makes S (payload P ctx x e) := by
  rw [payload.eq_def]
  split
  · refine makes_newStruct.bind fun i => (makes_layoutStruct ?_).bind fun _ => makes_pure
    exact fun x e he => hfields e (.field he)
  · exact (makes_memberType h).bind fun _ => makes_wrapPayloadInStruct.bind fun _ => makes_pure

theorem makes_layoutTaggedUnion {i : Nat} {members : List (Name × Option TypeExpr)}
    (h : ∀ x e, (x, some e) ∈ members → S (ctx, .field e) ∧
      ∀ e', TypeExpr.Child e' e → S (ctx, .field e')) :
    Makes S (layoutTaggedUnion P ctx i members) := by
  refine Makes.bind ?_ fun l => makes_modify
  generalize ({} : VariantsLayout) = l
  induction members generalizing l with
  | nil => exact makes_pure
  | cons member members ih =>
    have ih := ih fun x e he => h x e (List.mem_cons_of_mem _ he)
    obtain ⟨x, _ | e⟩ := member
    · exact ih _
    · have he := h x e List.mem_cons_self
      exact (makes_payload he.1 he.2).bind fun _ => makes_get.bind fun _ => ih _

theorem makes_errorVariants {members : List ResolvedType} {l : VariantsLayout} :
    Makes S (errorVariants P l members) := by
  induction members generalizing l with
  | nil => exact makes_pure
  | cons t members ih => exact makes_wrapPayloadInStruct.bind fun _ => makes_get.bind fun _ => ih

theorem makes_internErrorUnion {members : List ResolvedType} {isOptional : Bool} :
    Makes S (internErrorUnion P members isOptional) := by
  refine makes_reportIf.bind fun _ => makes_get.bind fun σ => ?_
  split
  · exact makes_pure
  · refine makes_newUnion.bind fun i => Makes.bind ?_ fun info =>
      makes_modify.bind fun _ => makes_modify.bind fun _ => makes_pure
    refine Makes.bind ?_ fun t => makes_wrapPayloadInStruct.bind fun _ =>
      makes_get.bind fun _ => makes_pure
    rw [failedPayload.eq_def]
    split
    · exact makes_pure
    · exact makes_errorVariants.bind fun _ => makes_newUnion.bind fun _ => makes_pure

theorem makes_resolveSignature {es : List TypeExpr} (h : ∀ e ∈ es, S (ctx, .field e)) :
    Makes S (resolveSignature ctx es) := by
  induction es with
  | nil => exact makes_pure
  | cons e es ih =>
    exact (makes_ask (h e List.mem_cons_self)).bind fun _ =>
      ih fun e he => h e (List.mem_cons_of_mem _ he)

theorem makes_resolveTypes {es : List TypeExpr} (h : ∀ e ∈ es, S (ctx, .type e)) :
    Makes S (resolveTypes ctx es) := by
  induction es with
  | nil => exact makes_pure
  | cons e es ih =>
    exact (makes_ask (h e List.mem_cons_self)).bind fun _ =>
      (ih fun e he => h e (List.mem_cons_of_mem _ he)).bind fun _ => makes_pure

theorem makes_resolveFinalShallow {x : Name}
    (h : ∀ d, P.find x = some d → .alias x ∉ ctx.stack →
      S (ctx.push (.alias x), .type d.type)) : Makes S (resolveFinalShallow P ctx x) := by
  rw [resolveFinalShallow]
  split
  · exact makes_fail
  · exact makes_pure
  · refine makes_get.bind fun σ => ?_
    split
    · exact makes_pure
    · refine makes_ite (fun _ => makes_fail) fun _ => makes_ite (fun _ => makes_fail) fun hx => ?_
      exact (makes_ask (h _ ‹_› hx)).bind fun _ => makes_modify.bind fun _ => makes_pure

section

variable (hfull : ∀ x, S (ctx.plain, .full x))
include hfull

theorem makes_sizeOperand {x : Name} : Makes S (sizeOperand P ctx x) := by
  rw [sizeOperand]
  split
  · exact makes_ask (hfull x)
  · exact makes_fail

theorem makes_evalIntegerConstExpr {e : ValueExpr} {iota : Nat} :
    Makes S (evalIntegerConstExpr P ctx iota e) := by
  induction e generalizing iota with
  | literal | name | iota | other => exact makes_pure
  | sizeOf x | alignOf x =>
    exact (makes_sizeOperand hfull).bind fun _ => makes_get.bind fun _ => makes_pure
  | add a b iha ihb | mul a b iha ihb =>
    exact iha.bind fun _ => ihb.bind fun _ => makes_pure

theorem makes_arrayLenExprValue {e : ValueExpr} : Makes S (arrayLenExprValue P ctx e) :=
  (makes_evalIntegerConstExpr hfull).bind fun _ => makes_reportIf.bind fun _ => makes_pure

theorem makes_enumFieldValue {iota : Nat} {pattern : Option ValueExpr} {x : Name}
    {init : Option ValueExpr} : Makes S (enumFieldValue P ctx iota pattern x init) := by
  rw [enumFieldValue.eq_def]
  split
  · exact (makes_evalIntegerConstExpr hfull).bind fun _ => makes_reportIf.bind fun _ => makes_pure
  · split
    · exact (makes_evalIntegerConstExpr hfull).bind fun _ => makes_pure
    · exact makes_pure

theorem makes_layoutEnumFields {fields : List (Name × Option ValueExpr)} {iota : Nat}
    {pattern : Option ValueExpr} {done : List (Name × Int)} :
    Makes S (layoutEnumFields P ctx iota pattern done fields) := by
  induction fields generalizing iota pattern done with
  | nil => exact makes_pure
  | cons field fields ih =>
    exact (makes_enumFieldValue hfull).bind fun _ => makes_reportIf.bind fun _ => ih

theorem makes_layoutEnum {i : Nat} {underlying : Option TypeExpr}
    {fields : List (Name × Option ValueExpr)} (h : ∀ e, underlying = some e → S (ctx, .type e)) :
    Makes S (layoutEnum P ctx i underlying fields) :=
  (makes_resolveTypeOr h).bind fun _ => (makes_layoutEnumFields hfull).bind fun _ => makes_modify

omit hfull in
theorem makes_checkBitsetVariants {bits : Nat} {fields : List (Name × Int)} :
    Makes S (checkBitsetVariants bits fields) := by
  induction fields with
  | nil => exact makes_pure
  | cons field fields ih => exact makes_reportIf.bind fun _ => ih

theorem makes_layoutBitset {i : Nat} {member : Name} {storage : Option TypeExpr}
    (h : ∀ e, storage = some e → S (ctx, .type e)) :
    Makes S (layoutBitset P ctx i member storage) := by
  refine (makes_ask (hfull member)).bind fun t => ?_
  split
  · exact (makes_resolveTypeOr h).bind fun _ => makes_reportIf.bind fun _ =>
      makes_get.bind fun _ => makes_checkBitsetVariants.bind fun _ => makes_modify
  · exact makes_report.bind fun _ => makes_modify

theorem makes_errorMembers {members : List Name} : Makes S (errorMembers ctx members) := by
  induction members with
  | nil => exact makes_pure
  | cons x members ih =>
    exact (makes_ask (hfull x)).bind fun _ => makes_get.bind fun _ => makes_reportIf.bind fun _ =>
      ih.bind fun _ => makes_pure

theorem makes_resolveErrorType {members : List Name} :
    Makes S (resolveErrorType P ctx members) :=
  (makes_errorMembers hfull).bind fun _ => makes_internErrorUnion

theorem makes_resolveOptionalErrorType {inner : TypeExpr} (h : S (ctx, .type inner)) :
    Makes S (resolveOptionalErrorType P ctx inner) := by
  refine Makes.bind ?_ fun t => makes_get.bind fun σ => ?_
  · rw [optionalInner.eq_def]
    split
    · exact makes_ask (hfull _)
    · exact makes_ask h
  · rw [makeOptional.eq_def]
    split
    · exact makes_pure
    · split
      · refine makes_ite (fun _ => makes_ite (fun _ => makes_pure) fun _ => ?_) fun _ =>
          makes_ite (fun _ => ?_) fun _ => makes_fail
        all_goals exact makes_internErrorUnion
      · exact makes_fail
    · exact makes_ite (fun _ => makes_internErrorUnion) fun _ => makes_fail

theorem makes_composeTraits {composing seen : List ResolvedType} {composed : List Name} :
    Makes S (composeTraits ctx composing seen composed) := by
  induction composed generalizing seen with
  | nil => exact makes_pure
  | cons x composed ih =>
    refine (makes_ask (hfull x)).bind fun t => ?_
    split
    · exact ih
    · exact makes_reportIf.bind fun _ => makes_reportIf.bind fun _ => ih
    · exact makes_report.bind fun _ => ih

end

theorem makes_layoutTrait {x : Name} {i : Nat} {signature : List TypeExpr} {composed : List Name}
    (hsignature : ∀ e ∈ signature, S (ctx.push (.trait x false), .field e))
    (hcomposed : ∀ y, S (ctx.push (.trait x true), .full y)) :
    Makes S (layoutTrait P ctx x i signature composed) :=
  (makes_resolveSignature hsignature).bind fun _ =>
    (makes_composeTraits hcomposed).bind fun _ => makes_modify

theorem makes_preallocateAggregate {e : TypeExpr} : Makes S (preallocateAggregate e) := by
  rw [preallocateAggregate.eq_def]
  split
  · exact makes_newStruct.bind fun _ => makes_pure
  · exact makes_newEnum.bind fun _ => makes_pure
  · exact makes_newUnion.bind fun _ => makes_pure
  · exact makes_newUnion.bind fun _ => makes_pure
  · exact makes_newBitset.bind fun _ => makes_pure
  · exact makes_pure

theorem makes_instanceType {e : TypeExpr} {slot : Option ResolvedType}
    (h : ∀ job, S (ctx, job)) (hplain : ∀ job, S (ctx.plain, job)) :
    Makes S (instanceType P ctx e slot) := by
  rw [instanceType.eq_def]
  split
  · refine Makes.bind ?_ fun _ => makes_pure
    rw [layoutPreallocated.eq_def]
    split
    · exact makes_layoutStruct fun _ _ _ => h _
    · exact makes_layoutEnum (fun _ => hplain _) fun _ _ => h _
    · exact makes_layoutUnion fun _ _ _ => h _
    · exact makes_layoutTaggedUnion fun _ _ _ => ⟨h _, fun _ _ => h _⟩
    · exact makes_layoutBitset (fun _ => hplain _) fun _ _ => h _
    · exact makes_pure
  · exact makes_ask (h _)

theorem makes_instantiateGenericType {x : Name} {d : TypeDecl} {args : List GenericArgValue}
    (h : ∀ slot, ctx.inProgress ⟨x, args⟩ = none → ∀ c job,
      c.stack = .generic ⟨x, args⟩ slot :: ctx.stack → S (c, job)) :
    Makes S (instantiateGenericType P ctx x d args) := by
  refine makes_get.bind fun σ => ?_
  split
  · exact makes_pure
  · split
    · exact makes_pure
    · exact makes_fail
    · refine makes_preallocateAggregate.bind fun slot => Makes.bind ?_ fun t =>
        makes_modify.bind fun _ => makes_pure
      exact makes_instanceType (fun job => h slot ‹_› _ job rfl) fun job => h slot ‹_› _ job rfl

theorem makes_resolveTypeName {x : Name}
    (h : ∀ d, P.find x = some d → .alias x ∉ ctx.stack →
      S (ctx.push (.alias x), .type d.type)) : Makes S (resolveTypeName P ctx x) := by
  rw [resolveTypeName.eq_def]
  split
  · exact makes_pure
  · exact makes_ite (fun _ => makes_resolveFinalShallow h) fun _ => makes_fail
  · exact makes_fail

/-! ## Every call is a smaller job or sets a guard -/

noncomputable def Job.rank : Job → Nat
  | .type e => 2 * sizeOf e
  | .field e => 2 * sizeOf e + 1
  | .full _ => 0

/-- The guard belongs to a declaration. -/
def Guard.Named (P : Program) : Guard → Prop
  | .alias x | .struct x | .union x | .bitset x | .trait x _ => (P.find x).isSome
  | .generic .. | .enum .. => False

/-- The guard belongs to an instance of a generic type or to an enum. -/
def Guard.IsOpen : Guard → Prop
  | .generic .. | .enum .. => True
  | _ => False

/-- The guard is one of an instance, or the next one of an enum. -/
def Guard.Next (ctx : Context) : Guard → Prop
  | .generic .. => True
  | .enum x level => level = ctx.enumLevel x
  | _ => False

/-- What a job calls: a smaller one with the same guards, or one with a guard that was not set. -/
inductive Below (P : Program) (a : Context × Job) : Context × Job → Prop
  | same {c : Context × Job} (hstack : c.1.stack = a.1.stack) (h : c.2.rank < a.2.rank) : Below P a c
  | push {c : Context × Job} {g : Guard} (hg : g ∉ a.1.stack) (hP : g.Named P ∨ g.Next a.1)
    (hstack : c.1.stack = g :: a.1.stack) : Below P a c

/-- The levels of the enums on the stack are below the one that comes next. -/
def Context.EnumsOk (ctx : Context) : Prop :=
  ∀ x level, .enum x level ∈ ctx.stack → level < ctx.enumLevel x

theorem sizeOf_pos (e : TypeExpr) : 0 < sizeOf e := by
  cases e <;> simp only [TypeExpr.builtin.sizeOf_spec, TypeExpr.named.sizeOf_spec,
    TypeExpr.pointer.sizeOf_spec, TypeExpr.slice.sizeOf_spec, TypeExpr.array.sizeOf_spec,
    TypeExpr.struct.sizeOf_spec, TypeExpr.enum.sizeOf_spec, TypeExpr.union.sizeOf_spec,
    TypeExpr.taggedUnion.sizeOf_spec, TypeExpr.bitset.sizeOf_spec, TypeExpr.function.sizeOf_spec,
    TypeExpr.trait.sizeOf_spec, TypeExpr.error.sizeOf_spec, TypeExpr.optionalError.sizeOf_spec] <;>
    omega

theorem generic_not_mem {key : GenericInstanceKey} {slot : Option ResolvedType}
    (h : ctx.inProgress key = none) : .generic key slot ∉ ctx.stack := by
  intro hmem
  have := List.findSome?_eq_none_iff.1 h _ hmem
  simp at this

section

variable {e : TypeExpr}

theorem Below.child {c : Context} {e' : TypeExpr} (h : TypeExpr.Child e' e)
    (hstack : c.stack = ctx.stack) : Below P (ctx, .type e) (c, .type e') := by
  refine .same hstack ?_
  have := h.sizeOf_lt
  simp only [Job.rank]
  omega

theorem Below.childField {e' : TypeExpr} (h : TypeExpr.Child e' e) :
    Below P (ctx, .type e) (ctx, .field e') := by
  refine .same rfl ?_
  have := h.sizeOf_lt
  simp only [Job.rank]
  omega

theorem Below.grandchildField {e' e'' : TypeExpr} (h : TypeExpr.Child e' e)
    (h' : TypeExpr.Child e'' e') : Below P (ctx, .type e) (ctx, .field e'') := by
  refine .same rfl ?_
  have := h.sizeOf_lt
  have := h'.sizeOf_lt
  simp only [Job.rank]
  omega

theorem Below.full {x : Name} : Below P (ctx, .type e) (ctx.plain, .full x) := by
  refine .same rfl ?_
  have := sizeOf_pos e
  simp only [Job.rank]
  omega

theorem Below.alias {job : Job} {x : Name} {d : TypeDecl} (hd : P.find x = some d)
    (hx : .alias x ∉ ctx.stack) {job' : Job} : Below P (ctx, job) (ctx.push (.alias x), job') :=
  .push hx (.inl (by rw [Guard.Named, hd, Option.isSome_some])) rfl

end

theorem makes_resolveGenericArg {x : Name} {k : ParamKind} {a : GenericArg}
    (htype : ∀ e, a = .type e → S (ctx, .type e)) (hfull : ∀ x, S (ctx.plain, .full x))
    (halias : ∀ x d, P.find x = some d → .alias x ∉ ctx.stack →
      S (ctx.push (.alias x), .type d.type)) : Makes S (resolveGenericArg P ctx x k a) := by
  rw [resolveGenericArg.eq_def]
  split
  · exact (makes_ask (htype _ rfl)).bind fun _ => makes_pure
  · exact (makes_resolveTypeName (halias _)).bind fun _ => makes_pure
  · exact (makes_evalIntegerConstExpr hfull).bind fun _ => makes_reportIf.bind fun _ => makes_pure
  · exact makes_report.bind fun _ => makes_pure

theorem makes_resolveGenericArgs {x : Name} {params : List GenericParam} {args : List GenericArg}
    (htype : ∀ e, .type e ∈ args → S (ctx, .type e)) (hfull : ∀ x, S (ctx.plain, .full x))
    (halias : ∀ x d, P.find x = some d → .alias x ∉ ctx.stack →
      S (ctx.push (.alias x), .type d.type)) :
    Makes S (resolveGenericArgs P ctx x params args) := by
  induction params generalizing args with
  | nil => exact makes_pure
  | cons p params ih =>
    cases args with
    | nil => exact makes_pure
    | cons a args =>
      refine Makes.bind (makes_resolveGenericArg ?_ hfull halias) fun _ => Makes.bind (ih ?_)
        fun _ => makes_pure
      · rintro e rfl
        exact htype e List.mem_cons_self
      · exact fun e he => htype e (List.mem_cons_of_mem _ he)

theorem makes_resolveNamedTypeShallow {x : Name} {args : List GenericArg} :
    Makes (Below P (ctx, .type (.named x args))) (resolveNamedTypeShallow P ctx x args) := by
  rw [resolveNamedTypeShallow.eq_def]
  split
  · exact makes_pure
  · refine makes_ite (fun _ => makes_resolveFinalShallow fun d hd hx => .alias hd hx) fun _ => ?_
    refine makes_ite (fun _ => makes_fail) fun _ => ?_
    refine Makes.bind (makes_resolveGenericArgs ?_ (fun _ => .full) fun y d hd hy => .alias hd hy)
      fun vs => ?_
    · intro e he
      split at he
      · obtain ⟨_, _, h⟩ := List.mem_map.1 he
        cases h
      · exact .child (.arg he) rfl
    · split
      · refine makes_instantiateGenericType fun slot h c job hc => ?_
        exact .push (generic_not_mem h) (.inr trivial) hc
      · exact makes_pure
  · exact makes_fail

theorem makes_resolveTypeImpl {e : TypeExpr} :
    Makes (Below P (ctx, .type e)) (resolveTypeImpl P ctx e) := by
  cases e with
  | builtin k => exact makes_pure
  | named x args => exact makes_resolveNamedTypeShallow
  | pointer e => exact (makes_ask (.child (.pointer e) rfl)).bind fun _ => makes_pure
  | slice e => exact (makes_ask (.child (.slice e) rfl)).bind fun _ => makes_pure
  | array size e =>
    cases size with
    | none => exact makes_fail
    | some size =>
      refine Makes.bind (makes_ask ?_) fun t => (makes_arrayLenExprValue fun _ => .full).bind
        fun n => makes_get.bind fun σ => makes_ite (fun _ => makes_fail) fun _ => makes_pure
      split
      · exact .child (.array _ e) rfl
      · exact .childField (.array _ e)
  | struct isPacked fields =>
    refine makes_newStruct.bind fun i => (makes_layoutStruct ?_).bind fun _ => makes_pure
    exact fun x e he => .childField (.field he)
  | enum underlying fields =>
    refine makes_newEnum.bind fun i => (makes_layoutEnum (fun _ => .full) ?_).bind fun _ =>
      makes_pure
    rintro e rfl
    exact .child (.underlying e fields) rfl
  | union members =>
    refine makes_newUnion.bind fun i => (makes_layoutUnion ?_).bind fun _ => makes_pure
    exact fun x e he => .childField (.member he)
  | taggedUnion members =>
    refine makes_newUnion.bind fun i => (makes_layoutTaggedUnion ?_).bind fun _ => makes_pure
    exact fun x e he => ⟨.childField (.variant he), fun e' h => .grandchildField (.variant he) h⟩
  | bitset member storage =>
    refine makes_newBitset.bind fun i => (makes_layoutBitset (fun _ => .full) ?_).bind fun _ =>
      makes_pure
    rintro e rfl
    exact .child (.storage member e) rfl
  | function params returns =>
    refine Makes.bind (makes_resolveTypes fun e he => .child (.param he) rfl) fun ps => ?_
    refine Makes.bind (makes_resolveTypes fun e he => .child (.return he) rfl) fun rs => ?_
    exact makes_internFunctionType
  | trait signature composed => exact makes_fail
  | error members => exact makes_resolveErrorType fun _ => .full
  | optionalError inner =>
    exact makes_resolveOptionalErrorType (fun _ => .full) (.child (.inner inner) rfl)

theorem makes_resolveFieldType {e : TypeExpr} :
    Makes (Below P (ctx, .field e)) (resolveFieldType P ctx e) := by
  have htype : ∀ {e : TypeExpr}, Below P (ctx, .field e) (ctx, .type e) :=
    .same rfl (Nat.lt_succ_self _)
  rw [resolveFieldType.eq_def]
  split
  · split
    · exact makes_pure
    · refine makes_ite (fun _ => makes_ask (.same rfl (Nat.succ_pos _))) fun _ => makes_ask htype
    · exact makes_fail
  · exact makes_ask htype

theorem find_of_slot {x : Name} {t : ResolvedType} (h : P.slot x = some t) :
    (P.find x).isSome := by
  obtain ⟨d, hd, _⟩ := Option.bind_eq_some_iff.1 h
  rw [hd, Option.isSome_some]

theorem makes_resolveFinalFull {x : Name} (hctx : ctx.EnumsOk) :
    Makes (Below P (ctx, .full x)) (resolveFinalFull P ctx x) := by
  refine makes_get.bind fun σ => ?_
  have hpush : ∀ {g : Guard} {job : Job}, g ∉ ctx.stack → g.Named P ∨ g.Next ctx →
      Below P (ctx, .full x) (ctx.push g, job) := fun hg hP => .push hg hP rfl
  split
  · refine makes_ite (fun _ => makes_pure) fun _ => makes_ite (fun _ => makes_fail) fun hx => ?_
    refine (makes_layoutStruct fun _ _ _ => ?_).bind fun _ => makes_pure
    exact hpush hx (.inl (find_of_slot ‹_›))
  · refine makes_ite (fun _ => makes_pure) fun _ => ?_
    have hx : Guard.enum x (ctx.enumLevel x) ∉ ctx.stack :=
      fun h => Nat.lt_irrefl _ (hctx _ _ h)
    refine (makes_layoutEnum (fun y => ?_) fun _ _ => ?_).bind fun _ => makes_pure
    all_goals exact hpush hx (.inr rfl)
  · refine makes_ite (fun _ => makes_pure) fun _ => makes_ite (fun _ => makes_fail) fun hx => ?_
    refine (makes_layoutUnion fun _ _ _ => ?_).bind fun _ => makes_pure
    exact hpush hx (.inl (find_of_slot ‹_›))
  · refine makes_ite (fun _ => makes_pure) fun _ => makes_ite (fun _ => makes_fail) fun hx => ?_
    refine (makes_layoutTaggedUnion fun _ _ _ => ⟨?_, fun _ _ => ?_⟩).bind fun _ => makes_pure
    all_goals exact hpush hx (.inl (find_of_slot ‹_›))
  · refine makes_ite (fun _ => makes_pure) fun _ => makes_ite (fun _ => makes_fail) fun hx => ?_
    refine (makes_layoutBitset (fun _ => ?_) fun _ _ => ?_).bind fun _ => makes_pure
    all_goals exact hpush hx (.inl (find_of_slot ‹_›))
  · refine makes_ite (fun _ => makes_pure) fun _ => makes_ite (fun _ => makes_pure) fun hx => ?_
    rw [not_or] at hx
    refine (makes_layoutTrait (fun _ _ => ?_) fun _ => ?_).bind fun _ => makes_pure
    · exact hpush hx.1 (.inl (find_of_slot ‹_›))
    · exact hpush hx.2 (.inl (find_of_slot ‹_›))
  · exact makes_resolveFinalShallow fun d hd hx => .alias hd hx

/-- Every call of a job is below it. -/
theorem resolve_makes {a : Context × Job} (h : a.1.EnumsOk) : Makes (Below P a) (resolve P a) := by
  obtain ⟨ctx, e | e | x⟩ := a
  · exact makes_resolveTypeImpl
  · exact makes_resolveFieldType
  · exact makes_resolveFinalFull h

/-! ## Nested calls -/

/-- What holds of the guards in every call: none is set twice, and each is that of a declaration,
    an instance or an enum. -/
structure Context.StackOk (P : Program) (ctx : Context) : Prop where
  nodup : ctx.stack.Nodup
  guards : ∀ g ∈ ctx.stack, g.Named P ∨ g.IsOpen
  enums : ctx.EnumsOk

theorem stackOk_nil : Context.StackOk P {} :=
  ⟨List.nodup_nil, fun _ h => absurd h List.not_mem_nil, fun _ _ h => absurd h List.not_mem_nil⟩

theorem Context.EnumsOk.push {c : Context} {g : Guard} (h : ctx.EnumsOk)
    (hg : g.Named P ∨ g.Next ctx) (hstack : c.stack = g :: ctx.stack) : c.EnumsOk := by
  intro x level hmem
  rw [hstack, List.mem_cons] at hmem
  rw [Context.enumLevel, hstack, List.countP_cons]
  obtain rfl | hmem := hmem
  · obtain hg | rfl := hg
    · exact hg.elim
    · simp [Context.enumLevel]
  · exact Nat.lt_of_lt_of_le (h x level hmem) (Nat.le_add_right _ _)

theorem Context.StackOk.below {a c : Context × Job} (h : a.1.StackOk P) (hc : Below P a c) :
    c.1.StackOk P := by
  cases hc with
  | same hstack _ =>
    refine ⟨hstack ▸ h.nodup, hstack ▸ h.guards, fun x level hmem => ?_⟩
    rw [Context.enumLevel, hstack] at *
    exact h.enums x level hmem
  | push hg hP hstack =>
    refine ⟨hstack ▸ List.nodup_cons.2 ⟨hg, h.nodup⟩, fun g hmem => ?_, h.enums.push hP hstack⟩
    rw [hstack, List.mem_cons] at hmem
    obtain rfl | hmem := hmem
    · refine hP.imp_right fun hn => ?_
      cases g <;> first | exact trivial | exact hn
    · exact h.guards g hmem

theorem mem_of_lookup {α β : Type} [BEq α] [LawfulBEq α] {l : List (α × β)} {a : α} {b : β}
    (h : l.lookup a = some b) : (a, b) ∈ l := by
  obtain ⟨l₁, l₂, rfl, _⟩ := List.lookup_eq_some_iff.1 h
  exact List.mem_append_right _ List.mem_cons_self

/-- The guards of the declarations are finitely many. -/
theorem finite_named (P : Program) : {g : Guard | g.Named P}.Finite := by
  refine ((P.decls.map Prod.fst).flatMap fun x => [Guard.alias x, .struct x, .union x, .bitset x,
    .trait x false, .trait x true]).finite_toSet.subset fun g hg => ?_
  have hmem : ∀ x, (P.find x).isSome → x ∈ P.decls.map Prod.fst := by
    intro x hx
    obtain ⟨d, hd⟩ := Option.isSome_iff_exists.1 hx
    exact List.mem_map.2 ⟨(x, d), mem_of_lookup hd, rfl⟩
  simp only [Set.mem_ofPred_eq, List.mem_flatMap]
  cases g with
  | «alias» x | struct x | union x | bitset x => exact ⟨x, hmem x hg, by simp⟩
  | trait x composing => exact ⟨x, hmem x hg, by cases composing <;> simp⟩
  | generic | enum => exact hg.elim

end

section

variable {P : Program} {jobs : List Job} {σ : State}

/-- A call that is made while the jobs are done one after the other. -/
def Visits (P : Program) (jobs : List Job) (σ : State) (c : Context × Job) : Prop :=
  ∃ τ, Comes (step (resolve P)) (resolveAll jobs σ) (c, τ)

theorem resolveAll_makes {S : Context × Job → Prop} (h : ∀ job, S ({}, job)) :
    Makes S (resolveAll jobs) := by
  induction jobs with
  | nil => exact makes_pure
  | cons job jobs ih =>
    exact (makes_ask (h job)).bind fun _ => ih.bind fun _ => makes_pure

theorem asks_below {c d : (Context × Job) × State} (hc : c.1.1.EnumsOk)
    (hd : Asks (step (resolve P)) (step (resolve P) c) d) : Below P c.1 d.1 :=
  (resolve_makes hc c.2).asks hd

theorem stackOk_of_comes {c : (Context × Job) × State}
    (h : Comes (step (resolve P)) (resolveAll jobs σ) c) : c.1.1.StackOk P := by
  obtain ⟨a, ha, hc⟩ := h
  have hnil : a.1.1.StackOk P :=
    (resolveAll_makes (S := fun a => a.1.StackOk P) (fun _ => stackOk_nil) σ).asks ha
  induction hc with
  | refl => exact hnil
  | tail _ hd ih => exact ih.below (asks_below ih.enums hd)

/-- No sequence of nested calls is endless when only finitely many guards are set. -/
theorem acc_of_finite (U : Finset Guard)
    (hU : ∀ c, Visits P jobs σ c → ∀ g ∈ c.1.stack, g ∈ U) {c : (Context × Job) × State}
    (hc : Comes (step (resolve P)) (resolveAll jobs σ) c) :
    Acc (fun d c => Asks (step (resolve P)) (step (resolve P) c) d) c := by
  have hlen : ∀ c, Comes (step (resolve P)) (resolveAll jobs σ) c → c.1.1.stack.length ≤ U.card := by
    intro c hc
    rw [← List.toFinset_card_of_nodup (stackOk_of_comes hc).nodup]
    exact Finset.card_le_card fun g hg => hU c.1 ⟨c.2, hc⟩ g (List.mem_toFinset.1 hg)
  -- outside on the guards that are left, inside on the size of the job
  induction hm : U.card - c.1.1.stack.length using Nat.strong_induction_on generalizing c with
  | h m ihm =>
    induction hn : c.1.2.rank using Nat.strong_induction_on generalizing c with
    | h n ihn =>
      refine .intro c fun d hd => ?_
      have hd' := hc.asks hd
      cases asks_below (stackOk_of_comes hc).enums hd with
      | same hstack hrank => exact ihn _ (hn ▸ hrank) hd' (by rw [hstack, hm]) rfl
      | push _ _ hstack =>
        refine ihm _ ?_ hd' rfl
        have := hlen d hd'
        rw [hstack, List.length_cons] at this ⊢
        omega

theorem evals_of_finite
    (h : {g : Guard | g.IsOpen ∧ ∃ c, Visits P jobs σ c ∧ g ∈ c.1.stack}.Finite) :
    ∃ r, Evals (step (resolve P)) (resolveAll jobs σ) r := by
  refine evals_of_asks fun a ha => returns_of_acc_asks ?_
  refine acc_of_finite ((finite_named P).union h).toFinset ?_ ⟨a, ha, .refl⟩
  rintro c ⟨τ, hc⟩ g hg
  rw [Set.Finite.mem_toFinset]
  exact ((stackOk_of_comes hc).guards g hg).imp_right fun ho => ⟨ho, c, ⟨τ, hc⟩, hg⟩

theorem finite_of_evals {r : List ResolvedType × State}
    (h : Evals (step (resolve P)) (resolveAll jobs σ) r) :
    {g : Guard | g.IsOpen ∧ ∃ c, Visits P jobs σ c ∧ g ∈ c.1.stack}.Finite := by
  refine (h.finite.biUnion fun c _ => c.1.1.stack.finite_toSet).subset ?_
  rintro g ⟨_, c, ⟨τ, hc⟩, hg⟩
  exact Set.mem_biUnion hc hg

end

end Mirage.Types
