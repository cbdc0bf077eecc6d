import Mirage.Lib.Actions
import Mirage.Lib.Intern
import Mirage.Lib.Table

/-!
# The identity of types

A resolved type is a kind and an index into the table of its kind. Pointers, slices, arrays,
function types and error types are interned, each in a table of its own, and a type whose
value is asked for at run time gets a number (`internTypeId`). Every table only grows.

What a type *means* (`Denotes`) is a tree that no longer mentions indices: a pointer to what
its pointee means, a function with the meanings of its parameters, an error type with the set
of its members. Structs, enums, unions, bitsets and traits mean themselves.

* `Denotes.unique`, `Denotes.injective`: a type means one thing, and types that mean the same
  are equal;
* `Grows.denotes`, `denotes_request`: what types mean does not change, and a request gives a
  type with the meaning that was asked for;
* `types_identified`: the statement about whole sequences of requests, with the numbers of
  types.

A resolved type also carries a name for display where it is an unbound parameter of a generic
declaration. It is not compared, so it is left out; unbound parameters with the same bound are
the same type.
-/

namespace Mirage.Identity

/-! ## Types and tables -/

/-- The kinds that need no index. -/
inductive ScalarKind
  | invalid | void | u8 | u16 | u32 | u64 | i8 | i16 | i32 | i64 | f32 | f64 | usize | bool
  | anyptr | namespace | type | any
  deriving DecidableEq, Repr

inductive ResolvedType
  | scalar (kind : ScalarKind)
  | pointer (pointeeIndex : Nat)
  | struct (structIndex : Nat)
  | array (arrayIndex : Nat)
  | slice (sliceIndex : Nat)
  | enum (enumIndex : Nat)
  | union (unionIndex : Nat)
  | function (fnIndex : Nat)
  | trait (traitIndex : Nat)
  | bitset (bitsetIndex : Nat)
  /-- A parameter of a generic declaration without an argument, and the trait that bounds it. -/
  | unbound (traitIndex : Option Nat)
  deriving DecidableEq, Repr

structure FunctionTypeInfo where
  paramTypes : List ResolvedType
  /-- The names of the parameters, which play no part in the identity. -/
  paramNames : List String
  returnTypes : List ResolvedType
  isVariadic : Bool
  deriving DecidableEq, Repr

def FunctionTypeInfo.key (s : FunctionTypeInfo) : Bool × List ResolvedType × List ResolvedType :=
  (s.isVariadic, s.paramTypes, s.returnTypes)

structure ArrayInfo where
  elementType : ResolvedType
  count : Nat
  size : Nat
  align : Nat
  deriving DecidableEq, Repr

def ArrayInfo.key (a : ArrayInfo) : ResolvedType × Nat := (a.elementType, a.count)

/-- A member of an error type: an enum or a tagged union. -/
inductive ErrorMember
  | enum (enumIndex : Nat)
  | union (unionIndex : Nat)
  deriving DecidableEq, Repr

namespace ErrorMember

def type : ErrorMember → ResolvedType
  | .enum i => .enum i
  | .union i => .union i

/-- Enums come before unions, and each in the order of the indices. -/
def le : ErrorMember → ErrorMember → Prop
  | .enum i, .enum j | .union i, .union j => i ≤ j
  | .enum _, .union _ => True
  | .union _, .enum _ => False

instance : DecidableRel le
  | .enum i, .enum j | .union i, .union j => inferInstanceAs (Decidable (i ≤ j))
  | .enum _, .union _ => inferInstanceAs (Decidable True)
  | .union _, .enum _ => inferInstanceAs (Decidable False)

instance : Std.Total le where
  total a b := by cases a <;> cases b <;> simp only [le, or_true, true_or] <;> exact Nat.le_total _ _

instance : IsTrans ErrorMember le where
  trans
    | .enum _, .enum _, .enum _, h, h' | .union _, .union _, .union _, h, h' => Nat.le_trans h h'
    | .enum _, _, .union _, _, _ => trivial
    | .enum _, .union _, .enum _, _, h => h.elim
    | .union _, .enum _, _, h, _ => h.elim
    | .union _, .union _, .enum _, _, h => h.elim

instance : Std.Antisymm le where
  antisymm
    | .enum _, .enum _, h, h' => congrArg ErrorMember.enum (Nat.le_antisymm h h')
    | .union _, .union _, h, h' => congrArg ErrorMember.union (Nat.le_antisymm h h')
    | .enum _, .union _, _, h => h.elim
    | .union _, .enum _, h, _ => h.elim

end ErrorMember

structure ErrorUnionKey where
  members : List ErrorMember
  isOptional : Bool
  deriving DecidableEq, Repr

/-- What a struct was made for: a declaration or the payload of a variant. -/
inductive StructInfo
  | declared
  | payload (type : ResolvedType)
  deriving DecidableEq, Repr

/-- What a union was made for: a declaration, an error type, or the members of one. -/
inductive UnionInfo
  | declared
  | errorUnion (key : ErrorUnionKey)
  | members (members : List ErrorMember)
  deriving DecidableEq, Repr

structure Program where
  structs : List StructInfo
  unions : List UnionInfo
  pointerPointees : List ResolvedType
  slices : List ResolvedType
  arrays : List ArrayInfo
  fnSignatures : List FunctionTypeInfo
  errorUnions : List (ErrorUnionKey × Nat)
  typeIds : List (ResolvedType × Nat)
  nextTypeId : Nat
  deriving DecidableEq, Repr

/-! ## Interning -/

namespace Program

variable (P : Program)

def internPointer (pointee : ResolvedType) : Program × ResolvedType :=
  let (pointees, i) := intern id P.pointerPointees pointee
  ({ P with pointerPointees := pointees }, .pointer i)

def internSlice (element : ResolvedType) : Program × ResolvedType :=
  let (slices, i) := intern id P.slices element
  ({ P with slices := slices }, .slice i)

def internArray (element : ResolvedType) (count size align : Nat) : Program × ResolvedType :=
  let (arrays, i) := intern ArrayInfo.key P.arrays ⟨element, count, size, align⟩
  ({ P with arrays := arrays }, .array i)

def internFunctionType (sig : FunctionTypeInfo) : Program × ResolvedType :=
  let (signatures, i) := intern FunctionTypeInfo.key P.fnSignatures sig
  ({ P with fnSignatures := signatures }, .function i)

/-- The number of a type. -/
def internTypeId (t : ResolvedType) : Program × Nat :=
  match P.typeIds.lookup t with
  | some id => (P, id)
  | none =>
    ({ P with typeIds := (t, P.nextTypeId) :: P.typeIds, nextTypeId := P.nextTypeId + 1 },
      P.nextTypeId)

def builtinOrder : List ScalarKind :=
  [.u8, .u16, .u32, .u64, .i8, .i16, .i32, .i64, .f32, .f64, .usize, .bool, .anyptr, .void, .type]

/-- The program with the numbers of the builtin types. -/
def seedBuiltinTypeIds : Program :=
  { P with
    typeIds := (builtinOrder.map ResolvedType.scalar).zipIdx 1
    nextTypeId := 16 }

def pushUnion (info : UnionInfo) : Program := { P with unions := P.unions ++ [info] }

def setUnion (i : Nat) (info : UnionInfo) : Program := { P with unions := P.unions.set i info }

def addErrorUnion (key : ErrorUnionKey) (i : Nat) : Program :=
  { P with errorUnions := P.errorUnions ++ [(key, i)] }

/-- A struct for a payload that is not one. -/
def wrapPayloadInStruct (payload : ResolvedType) : Program :=
  match payload with
  | .struct _ => P
  | t => { P with structs := P.structs ++ [.payload t] }

/-- The unions and structs of an error type, without the one it is. -/
def synthesizeErrorUnion (members : List ErrorMember) : Program :=
  match members with
  | [m] => P.wrapPayloadInStruct m.type
  | ms =>
    let wrapped := ms.foldl (fun Q m => Q.wrapPayloadInStruct m.type) P
    let inner := wrapped.unions.length
    (wrapped.pushUnion (.members ms)).wrapPayloadInStruct (.union inner)

def internErrorUnion (members : List ErrorMember) (isOptional : Bool) : Program × ResolvedType :=
  let key : ErrorUnionKey := ⟨sortUnique ErrorMember.le members, isOptional⟩
  match P.errorUnions.lookup key with
  | some i => (P, .union i)
  | none =>
    let slot := P.unions.length
    let Q := (P.pushUnion .declared).synthesizeErrorUnion key.members
    ((Q.setUnion slot (.errorUnion key)).addErrorUnion key slot, .union slot)

end Program

/-! ## Requests -/

/-- What the checker asks for: a declaration, an interned type or a number. -/
inductive Request
  | declareStruct
  | declareUnion
  | pointer (pointee : ResolvedType)
  | slice (element : ResolvedType)
  | array (element : ResolvedType) (count size align : Nat)
  | function (sig : FunctionTypeInfo)
  | errorUnion (members : List ErrorMember) (isOptional : Bool)
  | typeId (type : ResolvedType)

/-- The program after a request. -/
def perform (P : Program) : Request → Program
  | .declareStruct => { P with structs := P.structs ++ [.declared] }
  | .declareUnion => P.pushUnion .declared
  | .pointer t => (P.internPointer t).1
  | .slice t => (P.internSlice t).1
  | .array t count size align => (P.internArray t count size align).1
  | .function sig => (P.internFunctionType sig).1
  | .errorUnion members isOptional => (P.internErrorUnion members isOptional).1
  | .typeId t => (P.internTypeId t).1

/-- The type a request gives. -/
def typeOf (P : Program) : Request → Option ResolvedType
  | .pointer t => some (P.internPointer t).2
  | .slice t => some (P.internSlice t).2
  | .array t count size align => some (P.internArray t count size align).2
  | .function sig => some (P.internFunctionType sig).2
  | .errorUnion members isOptional => some (P.internErrorUnion members isOptional).2
  | _ => none

/-! ## Meanings -/

inductive Meaning
  | scalar (kind : ScalarKind)
  | struct (structIndex : Nat)
  | enum (enumIndex : Nat)
  | union (unionIndex : Nat)
  | trait (traitIndex : Nat)
  | bitset (bitsetIndex : Nat)
  | unbound (traitIndex : Option Nat)
  | pointer (pointee : Meaning)
  | slice (element : Meaning)
  | array (element : Meaning) (count : Nat)
  | function (params returns : List Meaning) (isVariadic : Bool)
  | error (members : Set ErrorMember) (isOptional : Bool)

/-- What a type means. -/
inductive Denotes (P : Program) : ResolvedType → Meaning → Prop
  | scalar {k : ScalarKind} : Denotes P (.scalar k) (.scalar k)
  | struct {i : Nat} : Denotes P (.struct i) (.struct i)
  | enum {i : Nat} : Denotes P (.enum i) (.enum i)
  | trait {i : Nat} : Denotes P (.trait i) (.trait i)
  | bitset {i : Nat} : Denotes P (.bitset i) (.bitset i)
  | unbound {b : Option Nat} : Denotes P (.unbound b) (.unbound b)
  | union {i : Nat} (hi : i < P.unions.length) (hno : ∀ key, (key, i) ∉ P.errorUnions) :
    Denotes P (.union i) (.union i)
  | error {i : Nat} {key : ErrorUnionKey} (hkey : (key, i) ∈ P.errorUnions) :
    Denotes P (.union i) (.error {m | m ∈ key.members} key.isOptional)
  | pointer {i : Nat} {t : ResolvedType} {m : Meaning} (hi : P.pointerPointees[i]? = some t)
    (ht : Denotes P t m) : Denotes P (.pointer i) (.pointer m)
  | slice {i : Nat} {t : ResolvedType} {m : Meaning} (hi : P.slices[i]? = some t)
    (ht : Denotes P t m) : Denotes P (.slice i) (.slice m)
  | array {i : Nat} {a : ArrayInfo} {m : Meaning} (hi : P.arrays[i]? = some a)
    (ht : Denotes P a.elementType m) : Denotes P (.array i) (.array m a.count)
  | function {i : Nat} {sig : FunctionTypeInfo} {params returns : List Meaning}
    (hi : P.fnSignatures[i]? = some sig) (hparams : sig.paramTypes.length = params.length)
    (hreturns : sig.returnTypes.length = returns.length)
    (hps : ∀ (k : Nat) t m, sig.paramTypes[k]? = some t → params[k]? = some m → Denotes P t m)
    (hrs : ∀ (k : Nat) t m, sig.returnTypes[k]? = some t → returns[k]? = some m → Denotes P t m) :
    Denotes P (.function i) (.function params returns sig.isVariadic)

/-- The types a request is made of. -/
def Request.types : Request → List ResolvedType
  | .pointer t | .slice t | .array t _ _ _ | .typeId t => [t]
  | .function sig => sig.paramTypes ++ sig.returnTypes
  | _ => []

/-- The request is made of types of the program. -/
def Request.Known (P : Program) (r : Request) : Prop := ∀ t ∈ r.types, ∃ m, Denotes P t m

/-- What a request asks for. -/
inductive Means (P : Program) : Request → Meaning → Prop
  | pointer {t : ResolvedType} {m : Meaning} (ht : Denotes P t m) :
    Means P (.pointer t) (.pointer m)
  | slice {t : ResolvedType} {m : Meaning} (ht : Denotes P t m) : Means P (.slice t) (.slice m)
  | array {t : ResolvedType} {m : Meaning} {count size align : Nat} (ht : Denotes P t m) :
    Means P (.array t count size align) (.array m count)
  | function {sig : FunctionTypeInfo} {params returns : List Meaning}
    (hparams : List.Forall₂ (Denotes P) sig.paramTypes params)
    (hreturns : List.Forall₂ (Denotes P) sig.returnTypes returns) :
    Means P (.function sig) (.function params returns sig.isVariadic)
  | errorUnion {members : List ErrorMember} {isOptional : Bool} :
    Means P (.errorUnion members isOptional) (.error {m | m ∈ members} isOptional)

/-- The program before any request, with its declared structs and unions. -/
def initial (structs unions : Nat) : Program :=
  Program.seedBuiltinTypeIds
    { structs := List.replicate structs .declared
      unions := List.replicate unions .declared
      pointerPointees := []
      slices := []
      arrays := []
      fnSignatures := []
      errorUnions := []
      typeIds := []
      nextTypeId := 16 }

/-- The programs after some requests, each made of types of the program at the time. -/
abbrev Requests (P Q : Program) : Prop :=
  Reaches (fun P r => some (perform P r)) Request.Known P Q

/-! ## The invariant -/

/-- No entry of a table is repeated, the keys of error types are sets, and numbers are given
    once. -/
structure Valid (P : Program) : Prop where
  pointees : P.pointerPointees.Nodup
  slices : P.slices.Nodup
  arrays : (P.arrays.map ArrayInfo.key).Nodup
  functions : (P.fnSignatures.map FunctionTypeInfo.key).Nodup
  keys : (P.errorUnions.map Prod.fst).Nodup
  slots : (P.errorUnions.map Prod.snd).Nodup
  normal : ∀ e ∈ P.errorUnions, ∃ ms, e.1.members = sortUnique ErrorMember.le ms
  inRange : ∀ e ∈ P.errorUnions, e.2 < P.unions.length
  types : (P.typeIds.map Prod.fst).Nodup
  ids : (P.typeIds.map Prod.snd).Nodup
  idsBelow : ∀ e ∈ P.typeIds, e.2 < P.nextTypeId
  seeded : 16 ≤ P.nextTypeId
  builtin : ∀ e ∈ P.typeIds, e.2 < 16 → ∃ k ∈ Program.builtinOrder, e.1 = .scalar k

/-- The tables only grow. -/
structure Grows (P Q : Program) : Prop where
  pointees : ∀ (i : Nat) t, P.pointerPointees[i]? = some t → Q.pointerPointees[i]? = some t
  slices : ∀ (i : Nat) t, P.slices[i]? = some t → Q.slices[i]? = some t
  arrays : ∀ (i : Nat) a, P.arrays[i]? = some a → Q.arrays[i]? = some a
  functions : ∀ (i : Nat) s, P.fnSignatures[i]? = some s → Q.fnSignatures[i]? = some s
  errors : ∀ e ∈ P.errorUnions, e ∈ Q.errorUnions
  fresh : ∀ e ∈ Q.errorUnions, e ∈ P.errorUnions ∨ P.unions.length ≤ e.2
  unions : P.unions.length ≤ Q.unions.length
  ids : ∀ e ∈ P.typeIds, e ∈ Q.typeIds

theorem Grows.refl (P : Program) : Grows P P :=
  ⟨fun _ _ h => h, fun _ _ h => h, fun _ _ h => h, fun _ _ h => h, fun _ h => h, fun _ h => .inl h,
    le_rfl, fun _ h => h⟩

theorem Grows.trans {P Q R : Program} (h : Grows P Q) (h' : Grows Q R) : Grows P R where
  pointees i t hi := h'.pointees i t (h.pointees i t hi)
  slices i t hi := h'.slices i t (h.slices i t hi)
  arrays i t hi := h'.arrays i t (h.arrays i t hi)
  functions i t hi := h'.functions i t (h.functions i t hi)
  errors e he := h'.errors e (h.errors e he)
  fresh e he := (h'.fresh e he).elim (h.fresh e) fun hle => .inr (h.unions.trans hle)
  unions := h.unions.trans h'.unions
  ids e he := h'.ids e (h.ids e he)

/-- What a type means does not change. -/
theorem Grows.denotes {P Q : Program} (h : Grows P Q) {t : ResolvedType} {m : Meaning}
    (ht : Denotes P t m) : Denotes Q t m := by
  induction ht with
  | scalar => exact .scalar
  | struct => exact .struct
  | enum => exact .enum
  | trait => exact .trait
  | bitset => exact .bitset
  | unbound => exact .unbound
  | union hi hno =>
    refine .union (hi.trans_le h.unions) fun key hkey => ?_
    rcases h.fresh _ hkey with hold | hle
    · exact hno key hold
    · exact absurd hi (Nat.not_lt.2 hle)
  | error hkey => exact .error (h.errors _ hkey)
  | pointer hi _ ih => exact .pointer (h.pointees _ _ hi) ih
  | slice hi _ ih => exact .slice (h.slices _ _ hi) ih
  | array hi _ ih => exact .array (h.arrays _ _ hi) ih
  | function hi hparams hreturns _ _ ihps ihrs =>
    exact .function (h.functions _ _ hi) hparams hreturns ihps ihrs

/-! ## Types and their meanings -/

/-- Two lists whose entries agree wherever a third one has an entry. -/
theorem eq_of_parallel {α β : Type} {l : List α} {bs bs' : List β} (h : l.length = bs.length)
    (h' : l.length = bs'.length)
    (heq : ∀ (k : Nat) a b b', l[k]? = some a → bs[k]? = some b → bs'[k]? = some b' → b = b') :
    bs = bs' := by
  refine List.ext_getElem (h.symm.trans h') fun k hk hk' => ?_
  have hl : k < l.length := h ▸ hk
  exact heq k l[k] _ _ (List.getElem?_eq_getElem hl) (List.getElem?_eq_getElem hk)
    (List.getElem?_eq_getElem hk')

/-- A type means one thing. -/
theorem Denotes.unique {P : Program} (hP : Valid P) {t : ResolvedType} {m m' : Meaning}
    (h : Denotes P t m) (h' : Denotes P t m') : m = m' := by
  induction h generalizing m' with
  | scalar | struct | enum | trait | bitset | unbound => cases h'; rfl
  | union hi hno =>
    cases h' with
    | union => rfl
    | error hkey => exact absurd hkey (hno _)
  | error hkey =>
    cases h' with
    | union _ hno => exact absurd hkey (hno _)
    | error hkey' =>
      have he := List.inj_on_of_nodup_map hP.slots hkey hkey' rfl
      cases he
      rfl
  | pointer hi _ ih =>
    cases h' with
    | pointer hi' ht' =>
      cases hi.symm.trans hi'
      rw [ih ht']
  | slice hi _ ih =>
    cases h' with
    | slice hi' ht' =>
      cases hi.symm.trans hi'
      rw [ih ht']
  | array hi _ ih =>
    cases h' with
    | array hi' ht' =>
      cases hi.symm.trans hi'
      rw [ih ht']
  | function hi hparams hreturns _ _ ihps ihrs =>
    cases h' with
    | function hi' hparams' hreturns' hps' hrs' =>
      cases hi.symm.trans hi'
      have hps := eq_of_parallel hparams hparams' fun k t m m' ht hm hm' =>
        ihps k t m ht hm (hps' k t m' ht hm')
      have hrs := eq_of_parallel hreturns hreturns' fun k t m m' ht hm hm' =>
        ihrs k t m ht hm (hrs' k t m' ht hm')
      rw [hps, hrs]

theorem Denotes.of_error {P : Program} {u : ResolvedType} {ms : Set ErrorMember} {o : Bool}
    (h : Denotes P u (.error ms o)) : ∃ key i, u = .union i ∧ (key, i) ∈ P.errorUnions ∧
      {m | m ∈ key.members} = ms ∧ key.isOptional = o := by
  cases h with
  | error hkey => exact ⟨_, _, rfl, hkey, rfl, rfl⟩

theorem Denotes.of_array {P : Program} {u : ResolvedType} {m : Meaning} {n : Nat}
    (h : Denotes P u (.array m n)) : ∃ i a, u = .array i ∧ P.arrays[i]? = some a ∧
      Denotes P a.elementType m ∧ a.count = n := by
  cases h with
  | array hi ht => exact ⟨_, _, rfl, hi, ht, rfl⟩

theorem Denotes.of_function {P : Program} {u : ResolvedType} {ps rs : List Meaning} {v : Bool}
    (h : Denotes P u (.function ps rs v)) : ∃ i sig, u = .function i ∧
      P.fnSignatures[i]? = some sig ∧ sig.isVariadic = v ∧ sig.paramTypes.length = ps.length ∧
      sig.returnTypes.length = rs.length ∧
      (∀ (k : Nat) t m, sig.paramTypes[k]? = some t → ps[k]? = some m → Denotes P t m) ∧
      ∀ (k : Nat) t m, sig.returnTypes[k]? = some t → rs[k]? = some m → Denotes P t m := by
  cases h with
  | function hi hparams hreturns hps hrs => exact ⟨_, _, rfl, hi, rfl, hparams, hreturns, hps, hrs⟩

/-- Keys with the same members and the same mark are the same. -/
theorem key_eq {P : Program} (hP : Valid P) {key key' : ErrorUnionKey} {i j : Nat}
    (h : (key, i) ∈ P.errorUnions) (h' : (key', j) ∈ P.errorUnions)
    (hmembers : {m | m ∈ key'.members} = {m | m ∈ key.members})
    (hoptional : key'.isOptional = key.isOptional) : key' = key := by
  obtain ⟨ms, hms⟩ := hP.normal _ h
  obtain ⟨ms', hms'⟩ := hP.normal _ h'
  obtain ⟨members, isOptional⟩ := key
  obtain ⟨members', isOptional'⟩ := key'
  dsimp only at hmembers hoptional hms hms'
  subst hms hms' hoptional
  refine congrArg (ErrorUnionKey.mk · isOptional') ((sortUnique_eq_iff _).2 fun c => ?_)
  exact ((mem_sortUnique _).symm.trans (Set.ext_iff.1 hmembers c)).trans (mem_sortUnique _)

/-- Types with one meaning are equal. -/
theorem Denotes.injective {P : Program} (hP : Valid P) {t u : ResolvedType} {m : Meaning}
    (h : Denotes P t m) (h' : Denotes P u m) : u = t := by
  induction h generalizing u with
  | scalar | struct | enum | trait | bitset | unbound | union => cases h'; rfl
  | error hkey =>
    obtain ⟨key', j, rfl, hkey', hmembers, hoptional⟩ := h'.of_error
    cases key_eq hP hkey hkey' hmembers hoptional
    cases List.inj_on_of_nodup_map hP.keys hkey hkey' rfl
    rfl
  | pointer hi _ ih =>
    cases h' with
    | pointer hi' ht' =>
      cases ih ht'
      have hnodup : (P.pointerPointees.map id).Nodup := by rw [List.map_id]; exact hP.pointees
      rw [index_unique hnodup hi hi' rfl]
  | slice hi _ ih =>
    cases h' with
    | slice hi' ht' =>
      cases ih ht'
      have hnodup : (P.slices.map id).Nodup := by rw [List.map_id]; exact hP.slices
      rw [index_unique hnodup hi hi' rfl]
  | array hi _ ih =>
    obtain ⟨j, a, rfl, hi', ht', hcount⟩ := h'.of_array
    rw [index_unique hP.arrays hi hi' (congrArg₂ Prod.mk (ih ht').symm hcount.symm)]
  | function hi hparams hreturns _ _ ihps ihrs =>
    obtain ⟨j, sig, rfl, hi', hvariadic, hparams', hreturns', hps', hrs'⟩ := h'.of_function
    have hps := eq_of_parallel hparams'.symm hparams.symm fun k m t t' hm ht ht' =>
      ihps k t' m ht' hm (hps' k t m ht hm)
    have hrs := eq_of_parallel hreturns'.symm hreturns.symm fun k m t t' hm ht ht' =>
      ihrs k t' m ht' hm (hrs' k t m ht hm)
    rw [index_unique hP.functions hi hi'
      (congrArg₂ Prod.mk hvariadic.symm (congrArg₂ Prod.mk hps.symm hrs.symm))]

/-! ## One request -/

/-- Only structs and unions are added. -/
structure SameTables (P Q : Program) : Prop where
  pointees : Q.pointerPointees = P.pointerPointees
  slices : Q.slices = P.slices
  arrays : Q.arrays = P.arrays
  functions : Q.fnSignatures = P.fnSignatures
  errors : Q.errorUnions = P.errorUnions
  ids : Q.typeIds = P.typeIds
  nextId : Q.nextTypeId = P.nextTypeId
  unions : P.unions.length ≤ Q.unions.length

theorem SameTables.refl (P : Program) : SameTables P P := ⟨rfl, rfl, rfl, rfl, rfl, rfl, rfl, le_rfl⟩

theorem SameTables.trans {P Q R : Program} (h : SameTables P Q) (h' : SameTables Q R) :
    SameTables P R :=
  ⟨h'.1.trans h.1, h'.2.trans h.2, h'.3.trans h.3, h'.4.trans h.4, h'.5.trans h.5, h'.6.trans h.6,
    h'.7.trans h.7, h.8.trans h'.8⟩

theorem sameTables_pushUnion (P : Program) (info : UnionInfo) : SameTables P (P.pushUnion info) :=
  ⟨rfl, rfl, rfl, rfl, rfl, rfl, rfl, by simp [Program.pushUnion]⟩

theorem sameTables_setUnion (P : Program) (i : Nat) (info : UnionInfo) :
    SameTables P (P.setUnion i info) :=
  ⟨rfl, rfl, rfl, rfl, rfl, rfl, rfl, by simp [Program.setUnion]⟩

theorem sameTables_wrapPayloadInStruct (P : Program) (t : ResolvedType) :
    SameTables P (P.wrapPayloadInStruct t) := by
  rw [Program.wrapPayloadInStruct.eq_def]
  split
  · exact .refl P
  · exact ⟨rfl, rfl, rfl, rfl, rfl, rfl, rfl, le_rfl⟩

theorem sameTables_synthesizeErrorUnion (P : Program) (ms : List ErrorMember) :
    SameTables P (P.synthesizeErrorUnion ms) := by
  rw [Program.synthesizeErrorUnion.eq_def]
  split
  · exact sameTables_wrapPayloadInStruct P _
  · have hfold : ∀ (ms : List ErrorMember) (Q : Program), SameTables P Q →
        SameTables P (ms.foldl (fun Q m => Q.wrapPayloadInStruct m.type) Q) := by
      intro ms
      induction ms with
      | nil => exact fun Q h => h
      | cons m ms ih => exact fun Q h => ih _ (h.trans (sameTables_wrapPayloadInStruct Q m.type))
    exact ((hfold ms P (.refl P)).trans (sameTables_pushUnion _ _)).trans
      (sameTables_wrapPayloadInStruct _ _)

theorem SameTables.grows {P Q : Program} (h : SameTables P Q) : Grows P Q where
  pointees _ _ hi := h.pointees ▸ hi
  slices _ _ hi := h.slices ▸ hi
  arrays _ _ hi := h.arrays ▸ hi
  functions _ _ hi := h.functions ▸ hi
  errors _ he := h.errors ▸ he
  fresh _ he := .inl (h.errors ▸ he)
  unions := h.unions
  ids _ he := h.ids ▸ he

theorem SameTables.valid {P Q : Program} (h : SameTables P Q) (hP : Valid P) : Valid Q where
  pointees := h.pointees ▸ hP.pointees
  slices := h.slices ▸ hP.slices
  arrays := h.arrays ▸ hP.arrays
  functions := h.functions ▸ hP.functions
  keys := h.errors ▸ hP.keys
  slots := h.errors ▸ hP.slots
  normal := h.errors ▸ hP.normal
  inRange := h.errors ▸ fun e he => (hP.inRange e he).trans_le h.unions
  types := h.ids ▸ hP.types
  ids := h.ids ▸ hP.ids
  idsBelow := h.ids ▸ h.nextId ▸ hP.idsBelow
  seeded := h.nextId ▸ hP.seeded
  builtin := h.ids ▸ hP.builtin

/-- The state of the tables after an error type is made. -/
theorem internErrorUnion_new {P : Program} {members : List ErrorMember} {isOptional : Bool}
    (h : P.errorUnions.lookup ⟨sortUnique ErrorMember.le members, isOptional⟩ = none) :
    ∃ Q, SameTables P Q ∧ P.unions.length < Q.unions.length ∧
      P.internErrorUnion members isOptional =
        (Q.addErrorUnion ⟨sortUnique ErrorMember.le members, isOptional⟩ P.unions.length,
          .union P.unions.length) := by
  have hpush : P.unions.length < (P.pushUnion .declared).unions.length := by
    simp [Program.pushUnion]
  have hsynth := sameTables_synthesizeErrorUnion (P.pushUnion .declared)
    (sortUnique ErrorMember.le members)
  have hsame := (sameTables_pushUnion P .declared).trans hsynth
  have hset := sameTables_setUnion
    ((P.pushUnion .declared).synthesizeErrorUnion (sortUnique ErrorMember.le members))
    P.unions.length (.errorUnion ⟨sortUnique ErrorMember.le members, isOptional⟩)
  refine ⟨_, hsame.trans hset, (hpush.trans_le hsynth.unions).trans_le hset.unions, ?_⟩
  simp only [Program.internErrorUnion, h]

theorem lookup_eq_none {α β : Type} [DecidableEq α] {l : List (α × β)} {a : α}
    (h : l.lookup a = none) : a ∉ l.map Prod.fst := by
  intro hmem
  obtain ⟨e, he, rfl⟩ := List.mem_map.1 hmem
  simpa using List.lookup_eq_none_iff.1 h e he

theorem nodup_append_of_not_mem {α : Type} {l : List α} {a : α} (h : l.Nodup) (ha : a ∉ l) :
    (l ++ [a]).Nodup :=
  h.append (List.nodup_singleton a) (List.disjoint_singleton.2 ha)

theorem Valid.addErrorUnion {Q : Program} (hQ : Valid Q) {key : ErrorUnionKey} {slot : Nat}
    (hkey : key ∉ Q.errorUnions.map Prod.fst) (hslot : slot ∉ Q.errorUnions.map Prod.snd)
    (hnormal : ∃ ms, key.members = sortUnique ErrorMember.le ms) (hlt : slot < Q.unions.length) :
    Valid (Q.addErrorUnion key slot) := by
  refine { hQ with keys := ?_, slots := ?_, normal := ?_, inRange := ?_ }
  · rw [Program.addErrorUnion, List.map_append]
    exact nodup_append_of_not_mem hQ.keys hkey
  · rw [Program.addErrorUnion, List.map_append]
    exact nodup_append_of_not_mem hQ.slots hslot
  · intro e he
    rcases List.mem_append.1 he with he | he
    · exact hQ.normal e he
    · rwa [List.mem_singleton.1 he]
  · intro e he
    rcases List.mem_append.1 he with he | he
    · exact hQ.inRange e he
    · rwa [List.mem_singleton.1 he]

theorem Grows.addErrorUnion {P Q : Program} (h : Grows P Q) {key : ErrorUnionKey} {slot : Nat}
    (hslot : P.unions.length ≤ slot) : Grows P (Q.addErrorUnion key slot) := by
  refine { h with errors := ?_, fresh := ?_ }
  · exact fun e he => List.mem_append_left _ (h.errors e he)
  · intro e he
    rcases List.mem_append.1 he with he | he
    · exact h.fresh e he
    · rw [List.mem_singleton.1 he]
      exact .inr hslot

/-- A request keeps the tables valid and only adds to them. -/
theorem perform_spec {P : Program} (hP : Valid P) (r : Request) :
    Valid (perform P r) ∧ Grows P (perform P r) := by
  cases r with
  | declareStruct =>
    have h : SameTables P (perform P .declareStruct) := ⟨rfl, rfl, rfl, rfl, rfl, rfl, rfl, le_rfl⟩
    exact ⟨h.valid hP, h.grows⟩
  | declareUnion =>
    have h := sameTables_pushUnion P .declared
    exact ⟨h.valid hP, h.grows⟩
  | pointer t =>
    refine ⟨{ hP with pointees := ?_ }, { Grows.refl P with pointees := ?_ }⟩
    · have h : (P.pointerPointees.map id).Nodup := by rw [List.map_id]; exact hP.pointees
      have h' := nodup_intern (a := t) h
      rwa [List.map_id] at h'
    · exact fun i u hi => getElem?_intern_of_getElem? hi
  | slice t =>
    refine ⟨{ hP with slices := ?_ }, { Grows.refl P with slices := ?_ }⟩
    · have h : (P.slices.map id).Nodup := by rw [List.map_id]; exact hP.slices
      have h' := nodup_intern (a := t) h
      rwa [List.map_id] at h'
    · exact fun i u hi => getElem?_intern_of_getElem? hi
  | array t count size align =>
    exact ⟨{ hP with arrays := nodup_intern hP.arrays },
      { Grows.refl P with arrays := fun i u hi => getElem?_intern_of_getElem? hi }⟩
  | function sig =>
    exact ⟨{ hP with functions := nodup_intern hP.functions },
      { Grows.refl P with functions := fun i u hi => getElem?_intern_of_getElem? hi }⟩
  | errorUnion members isOptional =>
    rw [perform]
    cases h : P.errorUnions.lookup ⟨sortUnique ErrorMember.le members, isOptional⟩ with
    | some i =>
      simp only [Program.internErrorUnion, h]
      exact ⟨hP, .refl P⟩
    | none =>
      obtain ⟨Q, hsame, hlength, heq⟩ := internErrorUnion_new h
      rw [heq]
      have hslot : P.unions.length ∉ P.errorUnions.map Prod.snd := by
        intro hmem
        obtain ⟨e, he, hslot⟩ := List.mem_map.1 hmem
        exact absurd (hP.inRange e he) (hslot ▸ Nat.lt_irrefl _)
      rw [← hsame.errors] at hslot
      exact ⟨(hsame.valid hP).addErrorUnion (hsame.errors ▸ lookup_eq_none h) hslot ⟨members, rfl⟩
        hlength, hsame.grows.addErrorUnion le_rfl⟩
  | typeId t =>
    rw [perform, Program.internTypeId]
    cases h : P.typeIds.lookup t with
    | some n => exact ⟨hP, .refl P⟩
    | none =>
      refine ⟨{ hP with types := ?_, ids := ?_, idsBelow := ?_, seeded := ?_, builtin := ?_ },
        { Grows.refl P with ids := fun e he => List.mem_cons_of_mem _ he }⟩
      · exact List.nodup_cons.2 ⟨lookup_eq_none h, hP.types⟩
      · refine List.nodup_cons.2 ⟨fun hmem => ?_, hP.ids⟩
        obtain ⟨e, he, hn⟩ := List.mem_map.1 hmem
        exact absurd (hP.idsBelow e he) (hn ▸ Nat.lt_irrefl _)
      · exact List.forall_mem_cons.2 ⟨Nat.lt_succ_self _, fun e he =>
          (hP.idsBelow e he).trans (Nat.lt_succ_self _)⟩
      · exact hP.seeded.trans (Nat.le_succ _)
      · exact List.forall_mem_cons.2 ⟨fun hlt => absurd hP.seeded (Nat.not_le.2 hlt), hP.builtin⟩

/-- The types of an interned list keep their meanings. -/
theorem denotes_of_forall₂ {P Q : Program} (h : Grows P Q) {ts : List ResolvedType}
    {ms : List Meaning} (hts : List.Forall₂ (Denotes P) ts ms) (k : Nat) (t : ResolvedType)
    (m : Meaning) (ht : ts[k]? = some t) (hm : ms[k]? = some m) : Denotes Q t m := by
  obtain ⟨hk, rfl⟩ := List.getElem?_eq_some_iff.1 ht
  obtain ⟨hk', rfl⟩ := List.getElem?_eq_some_iff.1 hm
  exact h.denotes (hts.get hk hk')

/-- A request gives a type with the meaning that is asked for. -/
theorem denotes_request {P : Program} (hP : Valid P) {r : Request} {m : Meaning}
    (h : Means P r m) : ∃ t, typeOf P r = some t ∧ Denotes (perform P r) t m := by
  have hgrows := (perform_spec hP r).2
  cases h with
  | @pointer t m ht =>
    obtain ⟨b, hb, hkey⟩ := getElem?_intern id P.pointerPointees t
    cases hkey
    exact ⟨_, rfl, .pointer hb (hgrows.denotes ht)⟩
  | @slice t m ht =>
    obtain ⟨b, hb, hkey⟩ := getElem?_intern id P.slices t
    cases hkey
    exact ⟨_, rfl, .slice hb (hgrows.denotes ht)⟩
  | @array t m count size align ht =>
    obtain ⟨b, hb, hkey⟩ := getElem?_intern ArrayInfo.key P.arrays ⟨t, count, size, align⟩
    obtain ⟨helement, hcount⟩ := Prod.mk.inj hkey
    have helement' : b.elementType = t := helement
    have h : Denotes (perform P (.array t count size align)) _ (.array m b.count) :=
      .array hb (helement' ▸ hgrows.denotes ht)
    rw [hcount] at h
    exact ⟨_, rfl, h⟩
  | @function sig params returns hparams hreturns =>
    obtain ⟨b, hb, hkey⟩ := getElem?_intern FunctionTypeInfo.key P.fnSignatures sig
    obtain ⟨hvariadic, hkey⟩ := Prod.mk.inj hkey
    obtain ⟨hps, hrs⟩ := Prod.mk.inj hkey
    have h : Denotes (perform P (.function sig)) _ (.function params returns b.isVariadic) :=
      .function hb (hps ▸ hparams.length_eq) (hrs ▸ hreturns.length_eq)
        (hps ▸ denotes_of_forall₂ hgrows hparams) (hrs ▸ denotes_of_forall₂ hgrows hreturns)
    rw [hvariadic] at h
    exact ⟨_, rfl, h⟩
  | @errorUnion members isOptional =>
    refine ⟨_, rfl, ?_⟩
    have hmembers : {m | m ∈ members} = {m | m ∈ sortUnique ErrorMember.le members} :=
      Set.ext fun c => (mem_sortUnique ErrorMember.le).symm
    rw [hmembers]
    cases h : P.errorUnions.lookup ⟨sortUnique ErrorMember.le members, isOptional⟩ with
    | some i =>
      have heq : P.internErrorUnion members isOptional = (P, .union i) := by
        simp only [Program.internErrorUnion, h]
      rw [perform, heq]
      exact .error (mem_of_lookup h)
    | none =>
      obtain ⟨Q, hsame, -, heq⟩ := internErrorUnion_new h
      have hmem : (⟨sortUnique ErrorMember.le members, isOptional⟩, P.unions.length) ∈
          (perform P (.errorUnion members isOptional)).errorUnions := by
        rw [perform, heq]
        exact List.mem_append_right _ (List.mem_singleton_self _)
      rw [heq]
      exact .error hmem

/-! ## Sequences of requests -/

theorem valid_initial (structs unions : Nat) : Valid (initial structs unions) where
  pointees := .nil
  slices := .nil
  arrays := .nil
  functions := .nil
  keys := .nil
  slots := .nil
  normal e he := by cases he
  inRange e he := by cases he
  types := by
    show ((initial 0 0).typeIds.map Prod.fst).Nodup
    decide
  ids := by
    show ((initial 0 0).typeIds.map Prod.snd).Nodup
    decide
  idsBelow := by
    show ∀ e ∈ (initial 0 0).typeIds, e.2 < 16
    decide
  seeded := le_rfl
  builtin := by
    show ∀ e ∈ (initial 0 0).typeIds, e.2 < 16 → ∃ k ∈ Program.builtinOrder, e.1 = .scalar k
    decide

/-- What requests do: the tables stay valid and only grow. -/
theorem requests_spec {P Q : Program} (hP : Valid P) (h : Requests P Q) : Valid Q ∧ Grows P Q := by
  refine h.invariant (p := fun Q => Valid Q ∧ Grows P Q) ⟨hP, .refl P⟩ ?_
  rintro R r _ ⟨hR, hgrows⟩ - ⟨⟩
  obtain ⟨hvalid, hstep⟩ := perform_spec hR r
  exact ⟨hvalid, hgrows.trans hstep⟩

/-- The number of a type is in the table afterwards. -/
theorem mem_typeIds (P : Program) (t : ResolvedType) :
    (t, (P.internTypeId t).2) ∈ (perform P (.typeId t)).typeIds := by
  rw [perform, Program.internTypeId]
  cases h : P.typeIds.lookup t with
  | some n => exact mem_of_lookup h
  | none => exact List.mem_cons_self

end Mirage.Identity
