import Mirage.Mir.Basic

/-!
# The C calling convention: plans and signatures

How the parameters and the return of a function with the C convention are lowered to the scalars
of a MIR signature. A *plan* says of each whether it is a scalar, one or two words in
registers, or memory behind a pointer; `signatureForC` makes the signature of a plan, and
`bindCParams` takes the parameters of the entry block apart again.

A type is its layout: the type resolver has given each struct a size, an alignment and the
offsets of its fields, and everything that is neither a scalar nor a struct nor an array is
`other`. Sizes and offsets are 32-bit numbers.

* `bindCParams_types`: the parameters are bound in the order in which the signature lists them,
  on every target.
-/

namespace Mirage.Mirgen

/-! ## Types with layouts -/

mutual

/-- The layout of a type. -/
inductive CType
  | scalar (ty : Ty)
  | struct (fields : CFields) (size align : Nat)
  | array (element : CType) (count : Nat)
  | other (size align : Nat)

/-- The fields of a struct with their offsets. -/
inductive CFields
  | nil
  | cons (offset : Nat) (type : CType) (rest : CFields)

end

/-- The size of a scalar in bytes. -/
def scalarSize (pointerBits : Nat) (ty : Ty) : Nat := max 1 (typeBits ty pointerBits / 8)

namespace CType

variable (pointerBits : Nat)

/-- The type of a scalar, and `void` for what lives in memory. -/
def scalarType : CType → Ty
  | scalar ty => ty
  | _ => .void

def isScalar : CType → Bool
  | scalar _ => true
  | _ => false

def size : CType → Nat
  | scalar ty => scalarSize pointerBits ty
  | struct _ size _ => size
  | array element count => min (element.size * count) (2 ^ 32 - 1)
  | other size _ => size

def align : CType → Nat
  | scalar ty => scalarSize pointerBits ty
  | struct _ _ align => align
  | array element _ => element.align
  | other _ align => align

end CType

/-! ## Classification -/

/-- A scalar inside an aggregate. -/
structure CLeaf where
  offset : Nat
  type : Ty
  size : Nat
  deriving DecidableEq, Repr

/-- The distance of the elements of an array. -/
def stride (pointerBits : Nat) (element : CType) : Nat :=
  let align := max 1 (element.align pointerBits)
  (max 1 (element.size pointerBits) + align - 1) / align * align

mutual

/-- The scalars of a type in order; none for a shape that is not classified. -/
def collectCLeaves (pointerBits : Nat) : CType → Nat → Option (List CLeaf)
  | .scalar ty, base => some [⟨base, ty, scalarSize pointerBits ty⟩]
  | .struct fields _ _, base => collectFields pointerBits fields base
  | .array element count, base =>
    ((List.range count).mapM fun i =>
      collectCLeaves pointerBits element
        ((base + i * stride pointerBits element % 2 ^ 32) % 2 ^ 32)).map List.flatten
  | .other _ _, _ => none

def collectFields (pointerBits : Nat) : CFields → Nat → Option (List CLeaf)
  | .nil, _ => some []
  | .cons offset type rest, base =>
    (collectCLeaves pointerBits type ((base + offset) % 2 ^ 32)).bind fun leaves =>
      (collectFields pointerBits rest base).map (leaves ++ ·)

end

inductive CParamKind
  | scalar | oneWord | twoWords | memory
  deriving DecidableEq, Repr

/-- How one parameter is lowered: the types of its words, and the registers they take. -/
structure CLowering where
  kind : CParamKind := .scalar
  w0 : Ty := .i64
  w1 : Ty := .i64
  intWords : Nat := 0
  sseWords : Nat := 0
  deriving DecidableEq, Repr

/-- The lowering of a function; `ret` counts when `hasAggregateRet`. -/
structure CAbiPlan where
  params : List CLowering := []
  ret : CLowering := {}
  hasAggregateRet : Bool := false
  deriving DecidableEq, Repr

def wasmCAbi (pointerBits : Nat) : Bool := pointerBits == 32

/-- Whether a scalar lies in the word `w`, in part or whole. -/
def CLeaf.inWord (leaf : CLeaf) (w : Nat) : Bool :=
  leaf.offset / 8 ≤ w && w ≤ (leaf.offset + leaf.size - 1) / 8

/-- Go through the scalars and mark the words that hold one that is no float; none as soon as
    one is not aligned. -/
def markWords : List CLeaf → Bool × Bool → Option (Bool × Bool)
  | [], sse => some sse
  | leaf :: leaves, sse =>
    if leaf.offset % min leaf.size 8 ≠ 0 then none
    else
      let mark := fun w s => if leaf.inWord w && !isFloat leaf.type then false else s
      markWords leaves (mark 0 sse.1, mark 1 sse.2)

def classifyCAggregate (pointerBits : Nat) (type : CType) : CLowering :=
  let size := max 1 (type.size pointerBits)
  let leaves := collectCLeaves pointerBits type 0
  if wasmCAbi pointerBits then
    match leaves with
    | some [leaf] =>
      if leaf.offset = 0 then { kind := .oneWord, w0 := leaf.type } else { kind := .memory }
    | _ => { kind := .memory }
  else if size > 16 then { kind := .memory }
  else
    match leaves.bind (markWords · (true, true)) with
    | none => { kind := .memory }
    | some (sse0, sse1) =>
      let w0 := if sse0 then Ty.f64 else .i64
      let w1 := if sse1 then Ty.f64 else .i64
      if size ≤ 8 then
        { kind := .oneWord, w0, w1, intWords := if sse0 then 0 else 1,
          sseWords := if sse0 then 1 else 0 }
      else
        let intWords := (if sse0 then 0 else 1) + if sse1 then 0 else 1
        { kind := .twoWords, w0, w1, intWords, sseWords := 2 - intWords }

/-! ## Plans -/

/-- The parameters of a plan, with the numbers of integer and SSE registers asked for so far. -/
def planParams (pointerBits : Nat) : Nat → Nat → List CType → List CLowering
  | _, _, [] => []
  | ints, sses, .scalar ty :: params =>
    { kind := .scalar } ::
      if isFloat ty then planParams pointerBits ints (sses + 1) params
      else planParams pointerBits (ints + 1) sses params
  | ints, sses, param :: params =>
    let lowering := classifyCAggregate pointerBits param
    if !wasmCAbi pointerBits && (lowering.kind == .oneWord || lowering.kind == .twoWords) then
      if ints + lowering.intWords > 6 ∨ sses + lowering.sseWords > 8 then
        { kind := .memory } :: planParams pointerBits ints sses params
      else
        lowering :: planParams pointerBits (ints + lowering.intWords) (sses + lowering.sseWords)
          params
    else lowering :: planParams pointerBits ints sses params

/-- The one return that is an aggregate. -/
def aggregateRet : List CType → Option CType
  | [type] => if type.isScalar then none else some type
  | _ => none

def buildCAbiPlan (pointerBits : Nat) (params returns : List CType) : CAbiPlan :=
  match aggregateRet returns with
  | some type =>
    let ret := classifyCAggregate pointerBits type
    let ints := if ret.kind == .memory && !wasmCAbi pointerBits then 1 else 0
    { params := planParams pointerBits ints 0 params, ret, hasAggregateRet := true }
  | none => { params := planParams pointerBits 0 0 params }

/-! ## Signatures -/

/-- A physical parameter with the size and the alignment of a copy by value. -/
structure PushedParam where
  type : Ty
  byvalSize : Nat := 0
  byvalAlign : Nat := 0

/-- The physical parameters of one parameter. -/
def pushParam (pointerBits : Nat) (type : CType) (lowering : CLowering) : List PushedParam :=
  match lowering.kind with
  | .scalar => [{ type := type.scalarType }]
  | .oneWord => [{ type := lowering.w0 }]
  | .twoWords => [{ type := lowering.w0 }, { type := lowering.w1 }]
  | .memory =>
    [{ type := .ptr
       byvalSize := if wasmCAbi pointerBits then 0 else max 1 (type.size pointerBits)
       byvalAlign := if wasmCAbi pointerBits then 0 else max 1 (type.align pointerBits) }]

def signatureForC (pointerBits : Nat) (params returns : List CType) (isVariadic : Bool)
    (plan : CAbiPlan) : Signature :=
  let base : Signature := { isVariadic }
  let (sig, front) : Signature × List PushedParam :=
    match returns with
    | [.scalar ty] => ({ base with result := ty }, [])
    | _ =>
      if plan.hasAggregateRet then
        match plan.ret.kind with
        | .oneWord => ({ base with result := plan.ret.w0 }, [])
        | .twoWords =>
          ({ base with cRetWords := 2, cRetSse := (plan.ret.w0 == .f64, plan.ret.w1 == .f64) }, [])
        | _ => ({ base with cSret := !wasmCAbi pointerBits }, [{ type := .ptr }])
      else if !returns.isEmpty then (base, [{ type := .ptr }])
      else (base, [])
  let pushed := front ++ (List.zipWith (pushParam pointerBits) params plan.params).flatten ++
    if sig.cRetWords == 2 then [{ type := .ptr }] else []
  let anyByval := pushed.any (·.byvalSize != 0)
  { sig with
    params := pushed.map PushedParam.type
    byvalSizes := if anyByval then pushed.map fun p => BitVec.ofNat 32 p.byvalSize else []
    byvalAligns := if anyByval then pushed.map fun p => BitVec.ofNat 32 p.byvalAlign else [] }

/-! ## Binding -/

/-- What the name of a parameter is bound to, by the positions of block parameters. -/
inductive CBinding
  /-- A scalar, or the address of a copy. -/
  | value (position : Nat)
  /-- A slot that one or two words are stored to. -/
  | words (slotSize slotAlign : Nat) (w0 : Nat) (w1 : Option Nat)
  deriving DecidableEq, Repr

/-- Where the result goes. -/
inductive CReturn
  | none
  /-- Behind the pointer that is a block parameter. -/
  | behind (position : Nat)
  /-- To a slot of the function, whose first word is returned. -/
  | slot (size align : Nat) (type : Ty)
  deriving DecidableEq, Repr

/-- The block parameters added so far and what they are bound to. -/
structure CBound where
  blockParams : List Ty := []
  bindings : List CBinding := []
  ret : CReturn := .none

def CBound.addReturn (b : CBound) : CBound :=
  { b with blockParams := b.blockParams ++ [.ptr], ret := .behind b.blockParams.length }

def bindParam (pointerBits : Nat) (b : CBound) (type : CType) (lowering : CLowering) : CBound :=
  let position := b.blockParams.length
  match lowering.kind with
  | .scalar =>
    { b with
      blockParams := b.blockParams ++ [type.scalarType]
      bindings := b.bindings ++ [.value position] }
  | .oneWord =>
    { b with
      blockParams := b.blockParams ++ [lowering.w0]
      bindings := b.bindings ++
        [.words (max 8 (type.size pointerBits)) (max 8 (type.align pointerBits)) position none] }
  | .twoWords =>
    { b with
      blockParams := b.blockParams ++ [lowering.w0, lowering.w1]
      bindings := b.bindings ++ [.words (max 16 (type.size pointerBits))
        (max 8 (type.align pointerBits)) position (some (position + 1))] }
  | .memory =>
    { b with blockParams := b.blockParams ++ [.ptr], bindings := b.bindings ++ [.value position] }

/-- Whether the results are written behind a pointer. -/
def returnsViaSret : List CType → Bool
  | [] => false
  | [type] => !type.isScalar
  | _ => true

def bindCParams (pointerBits : Nat) (params returns : List CType) (plan : CAbiPlan) : CBound :=
  let b : CBound :=
    if plan.hasAggregateRet && plan.ret.kind == .memory then ({} : CBound).addReturn
    else if !plan.hasAggregateRet && returnsViaSret returns then ({} : CBound).addReturn
    else {}
  let b := (params.zip plan.params).foldl (fun b p => bindParam pointerBits b p.1 p.2) b
  if plan.hasAggregateRet then
    match plan.ret.kind, returns.head? with
    | .twoWords, _ => b.addReturn
    | .oneWord, some type =>
      { b with
        ret := .slot (max 8 (type.size pointerBits)) (max 8 (type.align pointerBits)) plan.ret.w0 }
    | _, _ => b
  else b

/-! ## The order of the parameters -/

section Order

variable {pointerBits : Nat}

theorem blockParams_bindParam (b : CBound) (type : CType) (lowering : CLowering) :
    (bindParam pointerBits b type lowering).blockParams =
      b.blockParams ++ (pushParam pointerBits type lowering).map PushedParam.type := by
  rw [bindParam, pushParam]
  cases lowering.kind <;> rfl

theorem blockParams_foldl (pairs : List (CType × CLowering)) (b : CBound) :
    (pairs.foldl (fun b p => bindParam pointerBits b p.1 p.2) b).blockParams =
      b.blockParams ++
        ((pairs.map fun p => pushParam pointerBits p.1 p.2).flatten.map PushedParam.type) := by
  induction pairs generalizing b with
  | nil => simp
  | cons p pairs ih =>
    rw [List.foldl_cons, ih, blockParams_bindParam]
    simp

theorem kind_classify (type : CType) :
    (classifyCAggregate pointerBits type).kind ∈ [CParamKind.oneWord, .twoWords, .memory] := by
  rw [classifyCAggregate]
  dsimp only
  repeat' split
  all_goals simp

/-- **The parameters of the entry block are bound in the order in which the signature lists
    them.** -/
theorem bindCParams_types (params returns : List CType) (isVariadic : Bool) :
    (bindCParams pointerBits params returns (buildCAbiPlan pointerBits params returns)).blockParams =
      (signatureForC pointerBits params returns isVariadic
        (buildCAbiPlan pointerBits params returns)).params := by
  have hzip (lowerings : List CLowering) :
      ((params.zip lowerings).map fun p => pushParam pointerBits p.1 p.2) =
        List.zipWith (pushParam pointerBits) params lowerings := by
    rw [List.zip, List.map_zipWith]
  cases hret : aggregateRet returns with
  | some type =>
    obtain rfl : returns = [type] := by
      rcases returns with - | ⟨t, - | ⟨u, ts⟩⟩ <;> simp [aggregateRet] at hret
      rw [hret.2]
    have hscalar : type.isScalar = false := by
      by_contra h
      simp [aggregateRet, h] at hret
    have hkind : (classifyCAggregate pointerBits type).kind ∈ _ := kind_classify type
    simp only [List.mem_cons, List.not_mem_nil, or_false] at hkind
    simp only [bindCParams, signatureForC, buildCAbiPlan, hret]
    cases type with
    | scalar ty => cases hscalar
    | struct | array | other =>
      rcases hkind with h | h | h <;>
        simp [h, CBound.addReturn, blockParams_foldl, hzip, List.map_flatten]
  | none =>
    have hscalar : ∀ type, returns = [type] → ∃ ty, type = .scalar ty := by
      rintro type rfl
      cases type with
      | scalar ty => exact ⟨ty, rfl⟩
      | struct | array | other => cases hret
    simp only [bindCParams, signatureForC, buildCAbiPlan, hret]
    rcases returns with - | ⟨t, - | ⟨u, ts⟩⟩
    · simp [returnsViaSret, blockParams_foldl, hzip]
    · obtain ⟨ty, rfl⟩ := hscalar t rfl
      simp [returnsViaSret, CType.isScalar, blockParams_foldl, hzip]
    · simp [returnsViaSret, CBound.addReturn, blockParams_foldl, hzip]

end Order

end Mirage.Mirgen
