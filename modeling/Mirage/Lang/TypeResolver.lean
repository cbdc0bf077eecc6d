import Mirage.Lang.Ast
import Mirage.Lib.Calls
import Mathlib.Data.List.Dedup
import Mathlib.Data.List.Sort

/-!
# Type resolution

The resolver turns a type expression into a resolved type and lays out the aggregates it meets
on the way. It is lazy: a name in an ordinary position is resolved without its layout
(`resolveFinalShallow`), a name stored by value with it (`resolveFinalFull`), and an instance of
a generic type is made the first time its key is asked for (`instantiateGenericType`). What is
being resolved is kept in guards, each of which only knows its own key.

The functions are mutually recursive and need not return, so they are given by their step
(`Mirage.Calls.Stateful`). A call has a job, the context of the resolver (the guards that are
set, the bindings of the generic instance it works in, and whether it is below a pointer) and
the state of the program. The guards are one list here, a stack of what is in progress; the
entries of enums are only a record, since the resolver has no guard for them.

The declarations are those of one module. Of a constant expression only what it asks of the
resolver matters (`ValueExpr`): its numbers, the value parameters it mentions and the sizes of
types; a constant stands for its initializer. Of a trait, only the types in its methods and the
traits it is composed of are kept.
-/

namespace Mirage.Types

open Calls Stateful

abbrev Name := Ast.Name

/-! ## Declarations -/

inductive Builtin
  | u8 | u16 | u32 | u64 | i8 | i16 | i32 | i64 | f32 | f64 | usize | bool | anyptr | type | any
  deriving DecidableEq, Repr

inductive ValueExpr
  | literal (n : Nat)
  | name (x : Name)
  | iota
  | sizeOf (x : Name)
  | alignOf (x : Name)
  | add (a b : ValueExpr)
  | mul (a b : ValueExpr)
  /-- An expression of another form, which has no value here. -/
  | other
  deriving DecidableEq, Repr

mutual

inductive TypeExpr
  | builtin (k : Builtin)
  | named (x : Name) (args : List GenericArg)
  | pointer (t : TypeExpr)
  | slice (t : TypeExpr)
  | array (size : Option ValueExpr) (base : TypeExpr)
  | struct (isPacked : Bool) (fields : List (Name × TypeExpr))
  | enum (underlying : Option TypeExpr) (fields : List (Name × Option ValueExpr))
  | union (members : List (Name × TypeExpr))
  /-- A tagged union, whose variants need not have a payload. -/
  | taggedUnion (members : List (Name × Option TypeExpr))
  | bitset (member : Name) (storage : Option TypeExpr)
  | function (params returns : List TypeExpr)
  /-- A trait, by the types in its methods and the traits it is composed of. -/
  | trait (signature : List TypeExpr) (composed : List Name)
  | error (members : List Name)
  | optionalError (inner : TypeExpr)

/-- An argument of a generic type. One that begins with a name is parsed as an expression: a
    name is read back as a type where a type is expected, and an instance is not. -/
inductive GenericArg
  | type (t : TypeExpr)
  | expr (e : ValueExpr)

end

inductive ParamKind
  | type
  | value (k : Builtin)
  deriving DecidableEq, Repr

structure GenericParam where
  name : Name
  kind : ParamKind
  deriving DecidableEq, Repr

structure TypeDecl where
  params : List GenericParam
  type : TypeExpr

/-- The kinds of types that have a slot from their declaration on. -/
inductive AggregateKind
  | struct | enum | union | bitset | trait
  deriving DecidableEq, Repr

def TypeExpr.aggregate : TypeExpr → Option AggregateKind
  | .struct .. => some .struct
  | .enum .. => some .enum
  | .union .. | .taggedUnion .. => some .union
  | .bitset .. => some .bitset
  | .trait .. => some .trait
  | _ => none

/-- The declarations of a module, with different names, and the size of a pointer. -/
structure Program where
  decls : List (Name × TypeDecl)
  pointerSize : Nat
  nodup : (decls.map Prod.fst).Nodup

namespace Program

variable (P : Program)

def find (x : Name) : Option TypeDecl := P.decls.lookup x

/-- The declarations that have a slot of the kind, in the order of their slots. -/
def declared (k : AggregateKind) : List (Name × TypeExpr) :=
  P.decls.filterMap fun (x, d) =>
    if d.params.isEmpty ∧ d.type.aggregate = some k then some (x, d.type) else none

end Program

/-! ## Resolved types -/

/-- A resolved type. Aggregates are known by the index of their slot. -/
inductive ResolvedType
  | invalid
  | builtin (k : Builtin)
  | struct (index : Nat)
  | enum (index : Nat)
  | union (index : Nat)
  | bitset (index : Nat)
  | trait (index : Nat)
  | function (index : Nat)
  | pointer (pointee : ResolvedType)
  | slice (element : ResolvedType)
  | array (element : ResolvedType) (count : Nat)
  deriving DecidableEq, Repr

def AggregateKind.slot : AggregateKind → Nat → ResolvedType
  | .struct => .struct
  | .enum => .enum
  | .union => .union
  | .bitset => .bitset
  | .trait => .trait

/-- The slot a declaration got. -/
def Program.slot (P : Program) (x : Name) : Option ResolvedType := do
  let d ← P.find x
  if d.params.isEmpty then
    let k ← d.type.aggregate
    some (k.slot (((P.declared k).map Prod.fst).idxOf x))
  else none

inductive GenericArgValue
  | type (t : ResolvedType)
  | value (v : Nat) (k : Builtin)
  deriving DecidableEq, Repr

/-- A generic type with its arguments. -/
structure GenericInstanceKey where
  declName : Name
  args : List GenericArgValue
  deriving DecidableEq, Repr

structure StructField where
  name : Name
  type : ResolvedType
  offset : Nat
  deriving DecidableEq, Repr

structure StructInfo where
  fields : List StructField := []
  size : Nat := 0
  align : Nat := 1
  isPacked : Bool := false
  layoutDone : Bool := false
  deriving DecidableEq, Repr

structure Variant where
  name : Name
  /-- The type of the payload and the struct it is kept in. -/
  payload : Option (ResolvedType × Nat)
  deriving DecidableEq, Repr

structure UnionInfo where
  isTagged : Bool := false
  members : List (Name × ResolvedType) := []
  variants : List Variant := []
  payloadOffset : Nat := 0
  size : Nat := 0
  align : Nat := 1
  layoutDone : Bool := false
  isErrorUnion : Bool := false
  errorMemberTypes : List ResolvedType := []
  isOptional : Bool := false
  deriving DecidableEq, Repr

structure EnumInfo where
  underlyingType : ResolvedType := .invalid
  fields : List (Name × Int) := []
  layoutDone : Bool := false
  deriving DecidableEq, Repr

structure BitsetInfo where
  memberEnumType : ResolvedType := .invalid
  storageType : ResolvedType := .invalid
  layoutDone : Bool := false
  deriving DecidableEq, Repr

inductive Diagnostic
  | unknownType (x : Name)
  | aliasCycle (x : Name)
  | structCycle (x : Name)
  | unionCycle (x : Name)
  | bitsetCycle (x : Name)
  | instantiationCycle (x : Name)
  | traitCycle (x : Name)
  | incompleteMember (x : Name)
  | genericArguments (x : Name)
  | arrayLength
  | arrayTooLarge
  | enumValue (x : Name)
  | duplicateEnumField (x : Name)
  | bitsetMember
  | bitsetStorage
  | bitsetVariant (x : Name)
  | anonymousTrait
  | notTrait (x : Name)
  | duplicateTrait (x : Name)
  | errorMember (x : Name)
  | duplicateErrorMember
  | optionalError
  deriving DecidableEq, Repr

/-- What the resolver has made so far. -/
structure State where
  /-- The types of the aliases that are resolved. -/
  aliases : List (Name × ResolvedType) := []
  structs : List StructInfo := []
  unions : List UnionInfo := []
  enums : List EnumInfo := []
  bitsets : List BitsetInfo := []
  /-- For each trait, whether it is laid out. -/
  traits : List Bool := []
  functions : List (List ResolvedType × List ResolvedType) := []
  errorUnions : List ((List ResolvedType × Bool) × Nat) := []
  genericTypeInstances : List (GenericInstanceKey × ResolvedType) := []
  diagnostics : List Diagnostic := []
  deriving DecidableEq, Repr

def TypeExpr.isPacked : TypeExpr → Bool
  | .struct isPacked _ => isPacked
  | _ => false

def TypeExpr.isTagged : TypeExpr → Bool
  | .taggedUnion _ => true
  | _ => false

/-- The state after the declarations: every slot is there, none is laid out. -/
def declareTypes (P : Program) : State where
  structs := (P.declared .struct).map fun d => { isPacked := d.2.isPacked }
  unions := (P.declared .union).map fun d => { isTagged := d.2.isTagged }
  enums := (P.declared .enum).map fun _ => {}
  bitsets := (P.declared .bitset).map fun _ => {}
  traits := (P.declared .trait).map fun _ => false

/-! ## Sizes -/

/-- The range of the sizes. -/
def wrap32 (n : Nat) : Nat := n % 2 ^ 32

/-- The next multiple of the alignment. -/
def alignUp (n align : Nat) : Nat := wrap32 (n + align - 1) / align * align

def Builtin.size (pointerSize : Nat) : Builtin → Nat
  | .u8 | .i8 | .bool => 1
  | .u16 | .i16 => 2
  | .u32 | .i32 | .f32 => 4
  | .u64 | .i64 | .f64 | .type => 8
  | .usize | .anyptr => pointerSize
  | .any => 16

/-- The size of a type that needs no slot, which is also its alignment. -/
def primitiveSize (pointerSize : Nat) : ResolvedType → Nat
  | .builtin k => k.size pointerSize
  | .pointer _ | .function _ => pointerSize
  | .slice _ | .trait _ => 2 * pointerSize
  | _ => 0

namespace State

variable (pointerSize : Nat) (σ : State)

def resolvedTypeSize : ResolvedType → Nat
  | .struct i => (σ.structs[i]?.map (·.size)).getD 0
  | .array element count => min (resolvedTypeSize element * count) (2 ^ 32 - 1)
  | .enum i => (σ.enums[i]?.map fun e => primitiveSize pointerSize e.underlyingType).getD 0
  | .union i => (σ.unions[i]?.map (·.size)).getD 0
  | .bitset i => (σ.bitsets[i]?.map fun b => primitiveSize pointerSize b.storageType).getD 0
  | t => primitiveSize pointerSize t

def resolvedTypeAlign : ResolvedType → Nat
  | .struct i => (σ.structs[i]?.map (·.align)).getD 1
  | .array element _ => resolvedTypeAlign element
  | .slice _ | .trait _ => pointerSize
  | .builtin .any => 8
  | .enum i => (σ.enums[i]?.map fun e => primitiveSize pointerSize e.underlyingType).getD 1
  | .union i => (σ.unions[i]?.map (·.align)).getD 1
  | .bitset i => (σ.bitsets[i]?.map fun b => primitiveSize pointerSize b.storageType).getD 1
  | t => primitiveSize pointerSize t

/-- An aggregate that is not laid out, also as the element of an array. -/
def isIncomplete : ResolvedType → Bool
  | .struct i => σ.structs[i]?.any (!·.layoutDone)
  | .union i => σ.unions[i]?.any (!·.layoutDone)
  | .array element _ => isIncomplete element
  | _ => false

end State

/-! ## The resolver -/

/-- What is in progress. -/
inductive Guard
  | alias (x : Name)
  | struct (x : Name)
  | union (x : Name)
  | bitset (x : Name)
  /-- A trait, in its methods or in the traits it is composed of. -/
  | trait (x : Name) (composing : Bool)
  | generic (key : GenericInstanceKey) (slot : Option ResolvedType)
  /-- The layout of an enum inside that many layouts of itself. -/
  | enum (x : Name) (level : Nat)
  deriving DecidableEq, Repr

structure Context where
  stack : List Guard := []
  /-- The bindings of the parameters, in the right-hand side of an instance. -/
  env : List (Name × GenericArgValue) := []
  /-- Whether the type is the target of a pointer, a slice or a function type. -/
  pointee : Bool := false
  deriving DecidableEq, Repr

namespace Context

variable (ctx : Context)

/-- The context of a new resolver. -/
def plain : Context := { stack := ctx.stack }

def push (g : Guard) : Context := { stack := g :: ctx.stack }

def indirect : Context := { ctx with pointee := true }

def findTypeBinding (x : Name) : Option ResolvedType :=
  ctx.env.findSome? fun
    | (y, .type t) => if y = x then some t else none
    | _ => none

def findValueBinding (x : Name) : Option Nat :=
  ctx.env.findSome? fun
    | (y, .value v _) => if y = x then some v else none
    | _ => none

def enumLevel (x : Name) : Nat :=
  ctx.stack.countP fun
    | .enum y _ => y = x
    | _ => false

def inProgress (key : GenericInstanceKey) : Option (Option ResolvedType) :=
  ctx.stack.findSome? fun
    | .generic k slot => if k = key then some slot else none
    | _ => none

end Context

inductive Job
  | type (e : TypeExpr)
  | field (e : TypeExpr)
  | full (x : Name)

abbrev Resolve := Stateful (Context × Job) State ResolvedType

def report (d : Diagnostic) : Resolve Unit :=
  modify fun σ => { σ with diagnostics := σ.diagnostics ++ [d] }

/-- An error, in place of a type. -/
def fail (d : Diagnostic) : Resolve ResolvedType := do
  report d
  return .invalid

def reportIf (c : Prop) [Decidable c] (d : Diagnostic) : Resolve Unit :=
  if c then report d else return ()

def newStruct : Resolve Nat := do
  let σ ← get
  modify fun σ => { σ with structs := σ.structs ++ [{}] }
  return σ.structs.length

def newUnion (info : UnionInfo) : Resolve Nat := do
  let σ ← get
  modify fun σ => { σ with unions := σ.unions ++ [info] }
  return σ.unions.length

def newEnum : Resolve Nat := do
  let σ ← get
  modify fun σ => { σ with enums := σ.enums ++ [{}] }
  return σ.enums.length

def newBitset : Resolve Nat := do
  let σ ← get
  modify fun σ => { σ with bitsets := σ.bitsets ++ [{}] }
  return σ.bitsets.length

def setStruct (i : Nat) (info : StructInfo) : Resolve Unit :=
  modify fun σ => { σ with structs := σ.structs.set i info }

def setUnion (i : Nat) (info : UnionInfo) : Resolve Unit :=
  modify fun σ => { σ with unions := σ.unions.set i info }

def setEnum (i : Nat) (info : EnumInfo) : Resolve Unit :=
  modify fun σ => { σ with enums := σ.enums.set i info }

def setBitset (i : Nat) (info : BitsetInfo) : Resolve Unit :=
  modify fun σ => { σ with bitsets := σ.bitsets.set i info }

def setTrait (i : Nat) : Resolve Unit :=
  modify fun σ => { σ with traits := σ.traits.set i true }

def internFunctionType (params returns : List ResolvedType) : Resolve ResolvedType := do
  let σ ← get
  match σ.functions.idxOf? (params, returns) with
  | some i => return .function i
  | none =>
    modify fun σ => { σ with functions := σ.functions ++ [(params, returns)] }
    return .function σ.functions.length

/-- The bits as a signed number. -/
def toInt64 (n : Nat) : Int := if n < 2 ^ 63 then n else n - 2 ^ 64

def scalarValueFits (bits : Nat) : Builtin → Bool
  | .bool => bits ≤ 1
  | .u8 => bits < 2 ^ 8
  | .u16 => bits < 2 ^ 16
  | .u32 => bits < 2 ^ 32
  | .i8 => -2 ^ 7 ≤ toInt64 bits && toInt64 bits < 2 ^ 7
  | .i16 => -2 ^ 15 ≤ toInt64 bits && toInt64 bits < 2 ^ 15
  | .i32 => -2 ^ 31 ≤ toInt64 bits && toInt64 bits < 2 ^ 31
  | _ => true

section

variable (P : Program) (ctx : Context)

/-! ### Constant expressions -/

/-- The type an operand of `size_of` names, laid out. -/
def sizeOperand (x : Name) : Resolve ResolvedType :=
  match P.find x with
  | some _ => ask (ctx.plain, .full x)
  | none => fail (.unknownType x)

def evalIntegerConstExpr (iota : Nat) : ValueExpr → Resolve (Option Nat)
  | .literal n => return some (n % 2 ^ 64)
  | .name x => return ctx.findValueBinding x
  | .iota => return some iota
  | .sizeOf x => do
    let t ← sizeOperand P ctx x
    let σ ← get
    return some (σ.resolvedTypeSize P.pointerSize t)
  | .alignOf x => do
    let t ← sizeOperand P ctx x
    let σ ← get
    return some (σ.resolvedTypeAlign P.pointerSize t)
  | .add a b => do
    let m ← evalIntegerConstExpr 0 a
    let n ← evalIntegerConstExpr 0 b
    return m.bind fun m => n.map fun n => (m + n) % 2 ^ 64
  | .mul a b => do
    let m ← evalIntegerConstExpr 0 a
    let n ← evalIntegerConstExpr 0 b
    return m.bind fun m => n.map fun n => m * n % 2 ^ 64
  | .other => return none

def containsIota : ValueExpr → Bool
  | .iota => true
  | .add a b | .mul a b => containsIota a || containsIota b
  | _ => false

def arrayLenExprValue (e : ValueExpr) : Resolve Nat := do
  let n ← evalIntegerConstExpr P ctx 0 e
  reportIf (n = none) .arrayLength
  return n.getD 0

/-! ### Layouts -/

/-- A type that is stored by value. One that is not laid out is an error. -/
def rejectIncompleteMember (x : Name) (t : ResolvedType) : Resolve ResolvedType := do
  let σ ← get
  if σ.isIncomplete t then fail (.incompleteMember x) else return t

def memberType (x : Name) (e : TypeExpr) : Resolve ResolvedType := do
  let t ← ask (ctx, .field e)
  rejectIncompleteMember x t

/-- The fields that are laid out so far, where the next one may begin and the largest
    alignment. -/
structure FieldsLayout where
  fields : List StructField := []
  offset : Nat := 0
  maxAlign : Nat := 1

def FieldsLayout.add (l : FieldsLayout) (isPacked : Bool) (x : Name) (t : ResolvedType)
    (size align : Nat) : FieldsLayout :=
  let align := if isPacked then 1 else align
  let offset := if !isPacked && 0 < align then alignUp l.offset align else l.offset
  { fields := l.fields ++ [⟨x, t, offset⟩], offset := wrap32 (offset + size),
    maxAlign := max l.maxAlign align }

def FieldsLayout.info (l : FieldsLayout) (isPacked : Bool) : StructInfo where
  fields := l.fields
  size := if isPacked then l.offset else alignUp l.offset l.maxAlign
  align := if isPacked then 1 else l.maxAlign
  isPacked := isPacked
  layoutDone := true

def layoutFields (isPacked : Bool) (l : FieldsLayout) :
    List (Name × TypeExpr) → Resolve FieldsLayout
  | [] => return l
  | (x, e) :: fields => do
    let t ← memberType ctx x e
    let σ ← get
    layoutFields isPacked (l.add isPacked x t (σ.resolvedTypeSize P.pointerSize t)
      (σ.resolvedTypeAlign P.pointerSize t)) fields

def layoutStruct (i : Nat) (isPacked : Bool) (fields : List (Name × TypeExpr)) : Resolve Unit := do
  let l ← layoutFields P ctx isPacked {} fields
  setStruct i (l.info isPacked)

/-- The value of a field of an enum. A field without an expression takes the last one that
    contains `iota`, or else its position. -/
def enumFieldValue (iota : Nat) (pattern : Option ValueExpr) (x : Name) :
    Option ValueExpr → Resolve Nat
  | some e => do
    let n ← evalIntegerConstExpr P ctx iota e
    reportIf (n = none) (.enumValue x)
    return n.getD iota
  | none => match pattern with
    | some e => do
      let n ← evalIntegerConstExpr P ctx iota e
      return n.getD iota
    | none => return iota

def enumPattern (pattern : Option ValueExpr) : Option ValueExpr → Option ValueExpr
  | some e => if containsIota e then some e else none
  | none => pattern

def layoutEnumFields (iota : Nat) (pattern : Option ValueExpr) (done : List (Name × Int)) :
    List (Name × Option ValueExpr) → Resolve (List (Name × Int))
  | [] => return done
  | (x, init) :: fields => do
    let value ← enumFieldValue P ctx iota pattern x init
    reportIf (x ∈ done.map Prod.fst) (.duplicateEnumField x)
    layoutEnumFields (iota + 1) (enumPattern pattern init) (done ++ [(x, toInt64 value)]) fields

/-- A type that may be left out. -/
def resolveTypeOr (default : Builtin) : Option TypeExpr → Resolve ResolvedType
  | some e => ask (ctx, .type e)
  | none => return .builtin default

def layoutEnum (i : Nat) (underlying : Option TypeExpr) (fields : List (Name × Option ValueExpr)) :
    Resolve Unit := do
  let t ← resolveTypeOr ctx .i32 underlying
  let values ← layoutEnumFields P ctx 0 none [] fields
  setEnum i { underlyingType := t, fields := values, layoutDone := true }

def isBitsetStorage : ResolvedType → Bool
  | .builtin .u8 | .builtin .u16 | .builtin .u32 | .builtin .u64 => true
  | _ => false

def checkBitsetVariants (bits : Nat) : List (Name × Int) → Resolve Unit
  | [] => return ()
  | (x, value) :: fields => do
    reportIf (value + 1 < 0 ∨ bits ≤ value + 1) (.bitsetVariant x)
    checkBitsetVariants bits fields

def layoutBitset (i : Nat) (member : Name) (storage : Option TypeExpr) : Resolve Unit := do
  let t ← ask (ctx.plain, .full member)
  match t with
  | .enum j => do
    let s ← resolveTypeOr ctx .u32 storage
    reportIf (isBitsetStorage s = false) .bitsetStorage
    let s := if isBitsetStorage s then s else .builtin .u32
    let σ ← get
    checkBitsetVariants (8 * primitiveSize P.pointerSize s) (σ.enums[j]?.elim [] (·.fields))
    setBitset i { memberEnumType := t, storageType := s, layoutDone := true }
  | _ => do
    report .bitsetMember
    setBitset i { layoutDone := true }

/-- The struct that holds a payload: the payload itself when it is a struct, and else a new one
    with a single field. -/
def wrapPayloadInStruct (t : ResolvedType) : Resolve Nat := do
  match t with
  | .struct i => return i
  | t => do
    let i ← newStruct
    let σ ← get
    setStruct i
      { fields := [⟨"v", t, 0⟩], size := σ.resolvedTypeSize P.pointerSize t,
        align := σ.resolvedTypeAlign P.pointerSize t, layoutDone := true }
    return i

/-- The layout of a tag and a payload of the given size and alignment. -/
def UnionInfo.withPayload (info : UnionInfo) (size align : Nat) : UnionInfo :=
  let offset := alignUp 4 (max align 1)
  let unionAlign := max 4 align
  let unionSize := alignUp (wrap32 (offset + size)) unionAlign
  { info with
    payloadOffset := offset, align := unionAlign, size := if unionSize = 0 then 4 else unionSize,
    layoutDone := true }

/-- The variants that are laid out so far, with the largest size and alignment of a payload. -/
structure VariantsLayout where
  variants : List Variant := []
  maxSize : Nat := 0
  maxAlign : Nat := 1

def VariantsLayout.add (l : VariantsLayout) (σ : State) (x : Name) (t : ResolvedType) (i : Nat) :
    VariantsLayout where
  variants := l.variants ++ [⟨x, some (t, i)⟩]
  maxSize := max l.maxSize (σ.structs[i]?.elim 0 (·.size))
  maxAlign := max l.maxAlign (σ.structs[i]?.elim 0 (·.align))

def payload (x : Name) : TypeExpr → Resolve (ResolvedType × Nat)
  | .struct isPacked fields => do
    let i ← newStruct
    layoutStruct P ctx i isPacked fields
    return (.struct i, i)
  | e => do
    let t ← memberType ctx x e
    let i ← wrapPayloadInStruct P t
    return (t, i)

def layoutVariants (l : VariantsLayout) : List (Name × Option TypeExpr) → Resolve VariantsLayout
  | [] => return l
  | (x, none) :: members =>
    layoutVariants { l with variants := l.variants ++ [⟨x, none⟩] } members
  | (x, some e) :: members => do
    let (t, i) ← payload P ctx x e
    let σ ← get
    layoutVariants (l.add σ x t i) members

/-- The members that are laid out so far, with the largest size and alignment. -/
structure MembersLayout where
  members : List (Name × ResolvedType) := []
  maxSize : Nat := 0
  maxAlign : Nat := 1

def MembersLayout.add (l : MembersLayout) (x : Name) (t : ResolvedType) (size align : Nat) :
    MembersLayout where
  members := l.members ++ [(x, t)]
  maxSize := max l.maxSize size
  maxAlign := max l.maxAlign align

def layoutMembers (l : MembersLayout) : List (Name × TypeExpr) → Resolve MembersLayout
  | [] => return l
  | (x, e) :: members => do
    let t ← memberType ctx x e
    let σ ← get
    layoutMembers (l.add x t (σ.resolvedTypeSize P.pointerSize t)
      (σ.resolvedTypeAlign P.pointerSize t)) members

def layoutUnion (i : Nat) (members : List (Name × TypeExpr)) : Resolve Unit := do
  let l ← layoutMembers P ctx {} members
  setUnion i
    { members := l.members, size := alignUp l.maxSize l.maxAlign, align := l.maxAlign,
      layoutDone := true }

def layoutTaggedUnion (i : Nat) (members : List (Name × Option TypeExpr)) : Resolve Unit := do
  let l ← layoutVariants P ctx {} members
  setUnion i
    (UnionInfo.withPayload { isTagged := true, variants := l.variants } l.maxSize l.maxAlign)

/-! ### Error types -/

def isValidErrorMember (σ : State) : ResolvedType → Bool
  | .enum i => σ.enums[i]?.any fun e => e.underlyingType = .builtin .i32
  | .union i => σ.unions[i]?.any fun u => u.isTagged && !u.isErrorUnion
  | _ => false

/-- The order of the members of an error type: enums before unions. -/
def errorMemberOrder : ResolvedType → Nat × Nat
  | .enum i => (1, i)
  | .union i => (2, i)
  | _ => (0, 0)

def errorMemberLE (s t : ResolvedType) : Prop :=
  (errorMemberOrder s).1 < (errorMemberOrder t).1 ∨
    (errorMemberOrder s).1 = (errorMemberOrder t).1 ∧
      (errorMemberOrder s).2 ≤ (errorMemberOrder t).2

instance : DecidableRel errorMemberLE := fun _ _ => inferInstanceAs (Decidable (_ ∨ _ ∧ _))

def errorVariants (l : VariantsLayout) : List ResolvedType → Resolve VariantsLayout
  | [] => return l
  | t :: members => do
    let i ← wrapPayloadInStruct P t
    let σ ← get
    errorVariants (l.add σ "" t i) members

/-- The type of the payload of a failure: the only member, or a union of the members. -/
def failedPayload : List ResolvedType → Resolve ResolvedType
  | [t] => return t
  | members => do
    let l ← errorVariants P {} members
    let i ← newUnion (UnionInfo.withPayload
      { isTagged := true, isErrorUnion := true, errorMemberTypes := members,
        variants := l.variants } l.maxSize l.maxAlign)
    return .union i

/-- The union of `Ok` and `Failed`. -/
def synthesizeErrorUnion (members : List ResolvedType) (isOptional : Bool) :
    Resolve UnionInfo := do
  let failed ← failedPayload P members
  let i ← wrapPayloadInStruct P failed
  let σ ← get
  return UnionInfo.withPayload
    { isTagged := true, isErrorUnion := true, errorMemberTypes := members, isOptional := isOptional,
      variants := [⟨"Ok", none⟩, ⟨"Failed", some (failed, i)⟩] }
    (σ.structs[i]?.elim 0 (·.size)) (σ.structs[i]?.elim 1 (·.align))

def internErrorUnion (members : List ResolvedType) (isOptional : Bool) : Resolve ResolvedType := do
  reportIf (¬ members.Nodup) .duplicateErrorMember
  let members := (members.insertionSort errorMemberLE).dedup
  let σ ← get
  match σ.errorUnions.lookup (members, isOptional) with
  | some i => return .union i
  | none => do
    let i ← newUnion {}
    let info ← synthesizeErrorUnion P members isOptional
    setUnion i info
    modify fun σ => { σ with errorUnions := σ.errorUnions ++ [((members, isOptional), i)] }
    return .union i

def errorMembers : List Name → Resolve (List ResolvedType)
  | [] => return []
  | x :: members => do
    let t ← ask (ctx.plain, .full x)
    let σ ← get
    reportIf (isValidErrorMember σ t = false) (.errorMember x)
    let ts ← errorMembers members
    return t :: ts

def resolveErrorType (members : List Name) : Resolve ResolvedType := do
  let ts ← errorMembers ctx members
  internErrorUnion P ts false

/-- The type that is marked by `?`, with its layout where it is named. -/
def optionalInner : TypeExpr → Resolve ResolvedType
  | .named x _ => ask (ctx.plain, .full x)
  | e => ask (ctx, .type e)

/-- The error type of a type, marked as one that may be ignored. -/
def makeOptional (σ : State) (t : ResolvedType) : Resolve ResolvedType :=
  match t with
  | .invalid => return .invalid
  | .union i =>
    match σ.unions[i]? with
    | some u =>
      if u.isErrorUnion then
        if u.isOptional then return .union i else internErrorUnion P u.errorMemberTypes true
      else if u.isTagged then internErrorUnion P [.union i] true
      else fail .optionalError
    | none => fail .optionalError
  | t => if isValidErrorMember σ t then internErrorUnion P [t] true else fail .optionalError

def resolveOptionalErrorType (inner : TypeExpr) : Resolve ResolvedType := do
  let t ← optionalInner ctx inner
  let σ ← get
  makeOptional P σ t

/-! ### Traits -/

def resolveSignature : List TypeExpr → Resolve Unit
  | [] => return ()
  | e :: es => do
    let _ ← ask (ctx, .field e)
    resolveSignature es

/-- The traits a trait is composed of, with those seen before. The slots of the traits whose
    composition is in progress are given. -/
def composeTraits (composing : List ResolvedType) (seen : List ResolvedType) :
    List Name → Resolve Unit
  | [] => return ()
  | x :: composed => do
    let t ← ask (ctx.plain, .full x)
    match t with
    | .invalid => composeTraits composing seen composed
    | .trait i => do
      reportIf (.trait i ∈ composing) (.traitCycle x)
      reportIf (.trait i ∉ composing ∧ .trait i ∈ seen) (.duplicateTrait x)
      let seen := if .trait i ∈ composing then seen else .trait i :: seen
      composeTraits composing seen composed
    | _ => do
      report (.notTrait x)
      composeTraits composing seen composed

def Context.composing : List ResolvedType :=
  ctx.stack.filterMap fun
    | .trait x true => P.slot x
    | _ => none

def layoutTrait (x : Name) (i : Nat) (signature : List TypeExpr) (composed : List Name) :
    Resolve Unit := do
  resolveSignature (ctx.push (.trait x false)) signature
  let inner := ctx.push (.trait x true)
  composeTraits inner (inner.composing P) [] composed
  setTrait i

/-! ### Names -/

/-- The alias, or the slot of an aggregate that need not be laid out. -/
def resolveFinalShallow (x : Name) : Resolve ResolvedType := do
  match P.find x, P.slot x with
  | none, _ => fail (.unknownType x)
  | some _, some t => return t
  | some d, none => do
    let σ ← get
    match σ.aliases.lookup x with
    | some t => return t
    | none =>
      if ¬ d.params.isEmpty then fail (.genericArguments x)
      else if .alias x ∈ ctx.stack then fail (.aliasCycle x)
      else do
        let t ← ask (ctx.push (.alias x), .type d.type)
        modify fun σ => { σ with aliases := σ.aliases ++ [(x, t)] }
        return t

/-- The type of a name, with its layout if it is an aggregate. -/
def resolveFinalFull (x : Name) : Resolve ResolvedType := do
  let σ ← get
  match P.slot x, P.find x with
  | some (.struct i), some ⟨_, .struct isPacked fields⟩ =>
    if σ.structs[i]?.any (·.layoutDone) then return .struct i
    else if .struct x ∈ ctx.stack then fail (.structCycle x)
    else do
      layoutStruct P (ctx.push (.struct x)) i isPacked fields
      return .struct i
  | some (.enum i), some ⟨_, .enum underlying fields⟩ =>
    if σ.enums[i]?.any (·.layoutDone) then return .enum i
    else do
      layoutEnum P (ctx.push (.enum x (ctx.enumLevel x))) i underlying fields
      return .enum i
  | some (.union i), some ⟨_, .union members⟩ =>
    if σ.unions[i]?.any (·.layoutDone) then return .union i
    else if .union x ∈ ctx.stack then fail (.unionCycle x)
    else do
      layoutUnion P (ctx.push (.union x)) i members
      return .union i
  | some (.union i), some ⟨_, .taggedUnion members⟩ =>
    if σ.unions[i]?.any (·.layoutDone) then return .union i
    else if .union x ∈ ctx.stack then fail (.unionCycle x)
    else do
      layoutTaggedUnion P (ctx.push (.union x)) i members
      return .union i
  | some (.bitset i), some ⟨_, .bitset member storage⟩ =>
    if σ.bitsets[i]?.any (·.layoutDone) then return .bitset i
    else if .bitset x ∈ ctx.stack then fail (.bitsetCycle x)
    else do
      layoutBitset P (ctx.push (.bitset x)) i member storage
      return .bitset i
  | some (.trait i), some ⟨_, .trait signature composed⟩ =>
    if σ.traits[i]?.any id then return .trait i
    else if .trait x false ∈ ctx.stack ∨ .trait x true ∈ ctx.stack then return .trait i
    else do
      layoutTrait P ctx x i signature composed
      return .trait i
  | _, _ => resolveFinalShallow P ctx x

/-! ### Generic types -/

def preallocateAggregate : TypeExpr → Resolve (Option ResolvedType)
  | .struct .. => do
    let i ← newStruct
    return some (.struct i)
  | .enum .. => do
    let i ← newEnum
    return some (.enum i)
  | .union .. | .taggedUnion .. => do
    let i ← newUnion {}
    return some (.union i)
  | .bitset .. => do
    let i ← newBitset
    return some (.bitset i)
  | _ => return none

def layoutPreallocated : TypeExpr → ResolvedType → Resolve Unit
  | .struct isPacked fields, .struct i => layoutStruct P ctx i isPacked fields
  | .enum underlying fields, .enum i => layoutEnum P ctx i underlying fields
  | .union members, .union i => layoutUnion P ctx i members
  | .taggedUnion members, .union i => layoutTaggedUnion P ctx i members
  | .bitset member storage, .bitset i => layoutBitset P ctx i member storage
  | _, _ => return ()

/-- The right-hand side of an instance: the layout of its slot, or its type. -/
def instanceType (e : TypeExpr) : Option ResolvedType → Resolve ResolvedType
  | some t => do
    layoutPreallocated P ctx e t
    return t
  | none => ask (ctx, .type e)

/-- The instance, recorded under its key. -/
def makeInstance (key : GenericInstanceKey) (d : TypeDecl) (slot : Option ResolvedType) :
    Resolve ResolvedType := do
  let t ← instanceType P
    { stack := .generic key slot :: ctx.stack, env := (d.params.map (·.name)).zip key.args }
    d.type slot
  modify fun σ => { σ with genericTypeInstances := σ.genericTypeInstances ++ [(key, t)] }
  return t

def instantiateGenericType (x : Name) (d : TypeDecl) (args : List GenericArgValue) :
    Resolve ResolvedType := do
  let key : GenericInstanceKey := ⟨x, args⟩
  let σ ← get
  match σ.genericTypeInstances.lookup key with
  | some t => return t
  | none =>
    match ctx.inProgress key with
    | some (some t) => return t
    | some none => fail (.instantiationCycle x)
    | none => do
      let slot ← preallocateAggregate d.type
      makeInstance P ctx key d slot

/-- A name in the place of a type. -/
def resolveTypeName (x : Name) : Resolve ResolvedType :=
  match ctx.findTypeBinding x, P.find x with
  | some t, _ => return t
  | none, some d =>
    if d.params.isEmpty then resolveFinalShallow P ctx x else fail (.genericArguments x)
  | none, none => fail (.unknownType x)

def resolveGenericArg (x : Name) : ParamKind → GenericArg → Resolve (Option GenericArgValue)
  | .type, .type e => do
    let t ← ask (ctx, .type e)
    return some (.type t)
  | .type, .expr (.name y) => do
    let t ← resolveTypeName P ctx y
    return some (.type t)
  | .value k, .expr e => do
    let n ← evalIntegerConstExpr P ctx 0 e
    let v := (n.filter (scalarValueFits · k)).map (GenericArgValue.value · k)
    reportIf (v = none) (.genericArguments x)
    return v
  | _, _ => do
    report (.genericArguments x)
    return none

def resolveGenericArgs (x : Name) :
    List GenericParam → List GenericArg → Resolve (List (Option GenericArgValue))
  | p :: params, a :: args => do
    let v ← resolveGenericArg P ctx x p.kind a
    let vs ← resolveGenericArgs x params args
    return v :: vs
  | _, _ => return []

/-- The parameters of the instance that is being made, as arguments. -/
def Context.ownArgs : List GenericArg := ctx.env.map fun (y, _) => .expr (.name y)

def resolveGenericNamedType (x : Name) (d : TypeDecl) (args : List GenericArg) :
    Resolve ResolvedType := do
  let args := if args.isEmpty then ctx.ownArgs else args
  if args.length ≠ d.params.length then fail (.genericArguments x)
  else do
    let vs ← resolveGenericArgs P ctx x d.params args
    match vs.allSome with
    | some vs => instantiateGenericType P ctx x d vs
    | none => return .invalid

def resolveNamedTypeShallow (x : Name) (args : List GenericArg) : Resolve ResolvedType :=
  match if args.isEmpty then ctx.findTypeBinding x else none, P.find x with
  | some t, _ => return t
  | none, some d =>
    if d.params.isEmpty then resolveFinalShallow P ctx x
    else resolveGenericNamedType P ctx x d args
  | none, none => fail (.unknownType x)

/-! ### Type expressions -/

def resolveTypes : List TypeExpr → Resolve (List ResolvedType)
  | [] => return []
  | e :: es => do
    let t ← ask (ctx, .type e)
    let ts ← resolveTypes es
    return t :: ts

def resolveTypeImpl : TypeExpr → Resolve ResolvedType
  | .builtin k => return .builtin k
  | .named x args => resolveNamedTypeShallow P ctx x args
  | .pointer e => do
    let t ← ask (ctx.indirect, .type e)
    return .pointer t
  | .slice e => do
    let t ← ask (ctx.indirect, .type e)
    return .slice t
  | .array none _ => fail .arrayLength
  | .array (some size) e => do
    let t ← ask (ctx, if ctx.pointee then .type e else .field e)
    let n ← arrayLenExprValue P ctx size
    let σ ← get
    let bytes := σ.resolvedTypeSize P.pointerSize t
    if 0 < bytes ∧ (2 ^ 32 - 1) / bytes < n then fail .arrayTooLarge else return .array t n
  | .struct isPacked fields => do
    let i ← newStruct
    layoutStruct P ctx i isPacked fields
    return .struct i
  | .enum underlying fields => do
    let i ← newEnum
    layoutEnum P ctx i underlying fields
    return .enum i
  | .union members => do
    let i ← newUnion {}
    layoutUnion P ctx i members
    return .union i
  | .taggedUnion members => do
    let i ← newUnion {}
    layoutTaggedUnion P ctx i members
    return .union i
  | .bitset member storage => do
    let i ← newBitset
    layoutBitset P ctx i member storage
    return .bitset i
  | .function params returns => do
    let ps ← resolveTypes ctx.indirect params
    let rs ← resolveTypes ctx.indirect returns
    internFunctionType ps rs
  | .trait .. => fail .anonymousTrait
  | .error members => resolveErrorType P ctx members
  | .optionalError inner => resolveOptionalErrorType P ctx inner

/-- The type of a member, laid out where it is named. -/
def resolveFieldType : TypeExpr → Resolve ResolvedType
  | .named x [] =>
    match ctx.findTypeBinding x, P.find x with
    | some t, _ => return t
    | none, some d =>
      if d.params.isEmpty then ask (ctx.plain, .full x) else ask (ctx, .type (.named x []))
    | none, none => fail (.unknownType x)
  | e => ask (ctx, .type e)

end

/-- What the resolver does with a job. -/
def resolve (P : Program) : Context × Job → Resolve ResolvedType
  | (ctx, .type e) => resolveTypeImpl P ctx e
  | (ctx, .field e) => resolveFieldType P ctx e
  | (ctx, .full x) => resolveFinalFull P ctx x

/-- Jobs for a new resolver, one after the other. -/
def resolveAll : List Job → Resolve (List ResolvedType)
  | [] => return []
  | job :: jobs => do
    let t ← ask ({}, job)
    let ts ← resolveAll jobs
    return t :: ts

end Mirage.Types
