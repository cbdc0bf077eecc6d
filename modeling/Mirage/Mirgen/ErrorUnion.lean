import Mirage.Lang.Layout
import Mirage.Lib.Blob

/-!
# Lowering error values

A type `error(..)` is a union of `Ok` and `Failed`. The payload of a failure is the member
itself where there is one, and a second union of the members where there are more
(`ErrorType.inner`). Error values live in memory, so each statement that passes one on is
lowered to a list of writes (`Write`) into the last slot of the return list, and to a switch on
the tag of the members where the members of the two types differ (`Code`).

* `emitErrorRetag` rewrites a failure of one type to one of a type with more members;
* `emitErrorValueInto` lowers the operand of `return` and `return_err`, `emitTryPropagation` the
  failure of `try`, and `emitForward` a return list that is passed on;
* `ErrorType.read` is the value that a slot holds, and `ErrorType.dispatch` what `match` on it
  binds.

The sizes, alignments and names of the types are a parameter.
-/

namespace Mirage.Mirgen

open Mirage.Types (ResolvedType Name Member UnionInfo payloadLayout maxSize maxAlign exactTaggedSize)

/-- The size, alignment and name of each type. -/
abbrev Shape := ResolvedType → Member

variable {shape : Shape}

/-! ## Types -/

/-- The union of the members, one variant for each. -/
def innerUnion (shape : Shape) (members : List ResolvedType) : UnionInfo :=
  payloadLayout { isTagged := true, isErrorUnion := true, errorMemberTypes := members }
    (members.map shape)

/-- The size and the alignment of the payload of a failure: the only member, or the union of
    the members. -/
def failedExtent (shape : Shape) : List ResolvedType → Nat × Nat
  | [m] => ((shape m).size, (shape m).align)
  | members => ((innerUnion shape members).size, (innerUnion shape members).align)

/-- The union of `Ok` and `Failed`. -/
def outerUnion (shape : Shape) (members : List ResolvedType) (isOptional : Bool) : UnionInfo :=
  UnionInfo.withPayload
    { isTagged := true, isErrorUnion := true, errorMemberTypes := members,
      isOptional := isOptional }
    (failedExtent shape members).1 (failedExtent shape members).2

/-- A type `error(..)`. Its members are distinct and numbered in 32 bits, and its layouts are
    sound. -/
structure ErrorType (shape : Shape) where
  members : List ResolvedType
  isOptional : Bool
  nonempty : members ≠ []
  nodup : members.Nodup
  count : members.length < 2 ^ 31
  inner_fits : exactTaggedSize (maxSize (members.map shape)) (maxAlign (members.map shape)) < 2 ^ 32
  fits : exactTaggedSize (failedExtent shape members).1 (failedExtent shape members).2 < 2 ^ 32

namespace ErrorType

variable (E : ErrorType shape)

def info : UnionInfo := outerUnion shape E.members E.isOptional

/-- The union of the members, where there is more than one. -/
def inner : Option UnionInfo :=
  if E.members.length = 1 then none else some (innerUnion shape E.members)

def size : Nat := E.info.size

/-- The tag of the variant of a member. -/
def tag (m : ResolvedType) : Option Nat := E.members.idxOf? m

/-- The first variant with a name: its member and its tag. -/
def variantNamed (x : Name) : Option (Nat × ResolvedType) := do
  let m ← E.members.find? fun m => (shape m).name == x
  let i ← E.tag m
  return (i, m)

end ErrorType

/-- The tags of `Ok` and `Failed`. -/
def okTag : Nat := 0

def failedTag : Nat := 1

/-- The offset of the field of a payload in the struct around it. -/
def wrapperFieldOffset : Nat := 0

def variantPayloadOffset (info : UnionInfo) : Nat := info.payloadOffset + wrapperFieldOffset

/-! ## Code -/

/-- A write to the destination. -/
inductive Write
  | memSet (dest n : Nat)
  | store (dest value : Nat)
  | memCopy (dest src n : Nat)
  deriving DecidableEq, Repr

/-- The destination after a write. -/
def Write.run (src : Blob) : Write → Blob → Blob
  | memSet dest n, b => b.fill dest n
  | store dest value, b => b.store32 dest value
  | memCopy dest start n, b => b.copy dest src start n

def runWrites (src : Blob) (ws : List Write) (b : Blob) : Blob := ws.foldl (fun b w => w.run src b) b

/-- Writes, and a switch on a tag of the source with a case for each member of its type. -/
structure Code where
  writes : List Write
  switchOn : Option (Nat × List (Nat × List Write)) := none
  deriving DecidableEq, Repr

/-- The destination after the code; there is none when no case is taken. -/
def Code.run (src : Blob) (c : Code) (b : Blob) : Option Blob :=
  match c.switchOn with
  | none => some (runWrites src c.writes b)
  | some (tagAt, cases) =>
    (cases.lookup (src.load32 tagAt)).map fun ws => runWrites src ws (runWrites src c.writes b)

def Code.prepend (ws : List Write) (c : Code) : Code := { c with writes := ws ++ c.writes }

/-- The writes of a member: the tag of its variant and its bytes. -/
def writeMember (target : ErrorType shape) (inner : UnionInfo) (dest : Nat) (m : ResolvedType)
    (src : Nat) : Option (List Write) := do
  let i ← target.tag m
  let payload := dest + variantPayloadOffset target.info
  return [.store payload i,
    .memCopy (payload + variantPayloadOffset inner) src (max 1 (shape m).size)]

/-- A case for each member, by its tag. -/
def emitCases (write : ResolvedType → Option (List Write)) (members : List ResolvedType) :
    Option (List (Nat × List Write)) :=
  members.zipIdx.mapM fun v => (write v.1).map fun ws => (v.2, ws)

/-- A failure of one type as one of a type with more members. -/
def emitErrorRetag (target source : ErrorType shape) (dest src : Nat) : Option Code := do
  let inner ← target.inner
  let failed := [.memSet dest target.size, .store dest failedTag]
  let payload := src + variantPayloadOffset source.info
  match source.members, source.inner with
  | [m], _ =>
    let ws ← writeMember target inner dest m payload
    return { writes := failed ++ ws }
  | _, none => none
  | ms, some sourceInner =>
    let cases ← emitCases (fun m =>
      writeMember target inner dest m (payload + variantPayloadOffset sourceInner)) ms
    return { writes := failed, switchOn := some (payload, cases) }

/-- An operand: a value of an error type or of one of the members, at the start of the source. -/
inductive Operand (shape : Shape)
  | error (E : ErrorType shape)
  | member (m : ResolvedType)

/-- An operand as a value of the error type. A scalar is stored and an aggregate copied, which
    writes the same bytes. -/
def emitErrorValueInto (target : ErrorType shape) (dest : Nat) : Operand shape → Option Code
  | .error E =>
    if E.members = target.members then
      some { writes := [.memSet dest target.size, .memCopy dest 0 E.size] }
    else (emitErrorRetag target E dest 0).map (Code.prepend [.memSet dest target.size])
  | .member m =>
    let failed := [.memSet dest target.size, .store dest failedTag]
    let payload := dest + variantPayloadOffset target.info
    match target.inner with
    | none => some { writes := failed ++ [.memCopy payload 0 (shape m).size] }
    | some inner => do
      let i ← target.tag m
      return { writes := failed ++ [.store payload i,
        .memCopy (payload + variantPayloadOffset inner) 0 (shape m).size] }

/-! ## Return lists -/

/-- The types that a function with an error returns; the error comes last. -/
structure Returns (shape : Shape) where
  leading : List ResolvedType
  error : ErrorType shape

/-- The end of the slots. -/
def slotsEnd (shape : Shape) (ts : List ResolvedType) : Nat :=
  ts.foldl (fun cursor t => roundUp cursor (max 1 (shape t).align) + max 1 (shape t).size) 0

namespace Returns

variable (R : Returns shape)

/-- The offset of the error in the return list. -/
def errorOffset : Nat := roundUp (slotsEnd shape R.leading) (max 1 R.error.info.align)

def align : Nat :=
  max (R.leading.foldl (fun a t => max a (max 1 (shape t).align)) 1) (max 1 R.error.info.align)

/-- The size of the return list. -/
def size : Nat := max 1 (roundUp (R.errorOffset + max 1 R.error.size) R.align)

/-- The lists are the same types. -/
def Same (R' : Returns shape) : Prop :=
  R.leading = R'.leading ∧ R.error.members = R'.error.members ∧
    R.error.isOptional = R'.error.isOptional

instance (R' : Returns shape) : Decidable (R.Same R') := inferInstanceAs (Decidable (_ ∧ _ ∧ _))

/-- The slots in front of the error are zeroed. -/
def zeroLeading : List Write := if 0 < R.errorOffset then [.memSet 0 R.errorOffset] else []

end Returns

/-! ## Statements -/

/-- A statement that leaves the function with an error value, or goes on when there is none. -/
inductive Statement (shape : Shape)
  | tryCall (callee : Returns shape)
  | returnErr (operand : Operand shape)
  | returnValue (operand : Operand shape)
  | forward (callee : Returns shape)

/-- The branch of `try` that is taken when the tag is not zero. -/
def emitTryPropagation (caller callee : Returns shape) : Option Code :=
  let c := if callee.error.members = caller.error.members then
      some { writes := [.memCopy caller.errorOffset callee.errorOffset caller.error.size] }
    else emitErrorRetag caller.error callee.error caller.errorOffset callee.errorOffset
  c.map (Code.prepend caller.zeroLeading)

def emitReturnErr (caller : Returns shape) (operand : Operand shape) : Option Code :=
  (emitErrorValueInto caller.error caller.errorOffset operand).map (Code.prepend caller.zeroLeading)

/-- A return list that is passed on: a copy of the whole where the types are the same, and
    slot by slot otherwise. The slots in front of the error are written before it. -/
def emitForward (caller callee : Returns shape) : Code :=
  if callee.Same caller then { writes := [.memCopy 0 0 caller.size] }
  else { writes := [.memCopy caller.errorOffset callee.errorOffset (max 1 caller.error.size)] }

/-- How a statement ends. -/
inductive Flow
  | continues
  | returns (blob : Blob)

/-- A statement in a function: the value is in the source, and the return list holds what the
    slots in front of the error left there. -/
def Statement.run (caller : Returns shape) (src dest : Blob) : Statement shape → Option Flow
  | .tryCall callee =>
    if src.load32 callee.errorOffset ≠ okTag then
      (emitTryPropagation caller callee).bind fun c => (c.run src dest).map .returns
    else some .continues
  | .returnErr operand => (emitReturnErr caller operand).bind fun c => (c.run src dest).map .returns
  | .returnValue operand =>
    (emitErrorValueInto caller.error caller.errorOffset operand).bind fun c =>
      (c.run src dest).map .returns
  | .forward callee => ((emitForward caller callee).run src dest).map .returns

/-- What the checker accepts in a function. -/
def Statement.Accepted (caller : Returns shape) : Statement shape → Prop
  | .tryCall callee => callee.error.members ⊆ caller.error.members
  | .returnErr (.error E) => E.members ⊆ caller.error.members
  | .returnValue (.error E) => E.members = caller.error.members
  | .returnErr (.member m) | .returnValue (.member m) => m ∈ caller.error.members
  | .forward callee =>
    callee.leading.length = caller.leading.length ∧ callee.error.members = caller.error.members

/-! ## Values -/

/-- An error value: none, or a member with its bytes. -/
inductive Outcome
  | ok
  | failed (member : ResolvedType) (payload : List (BitVec 8))
  deriving DecidableEq, Repr

namespace ErrorType

variable (E : ErrorType shape) (b : Blob) (offset : Nat)

/-- The member of a failure whose payload begins at an offset, and where its bytes begin. -/
def memberAt : Option (ResolvedType × Nat) :=
  match E.inner with
  | none => E.members.head?.map fun m => (m, offset)
  | some inner => E.members[b.load32 offset]?.map fun m => (m, offset + variantPayloadOffset inner)

/-- The value of a slot. -/
def read : Option Outcome :=
  if b.load32 offset = okTag then some .ok
  else if b.load32 offset = failedTag then
    (E.memberAt b (offset + variantPayloadOffset E.info)).map fun v =>
      .failed v.1 (b.bytes v.2 (shape v.1).size)
  else none

/-- What the arms of a `match` bind: the payload of the failure where there is one member, and
    else the payload of the variant, found by its name, whose tag a copy of the union has. -/
def dispatch (arms : List Name) : Option (ResolvedType × List (BitVec 8)) :=
  let payload := offset + variantPayloadOffset E.info
  match E.inner with
  | none => E.members.head?.map fun m => (m, b.bytes payload (shape m).size)
  | some inner =>
    let copy := Blob.copy (fun _ => 0) 0 b payload (max 1 inner.size)
    let cases := arms.filterMap E.variantNamed
    (cases.lookup (copy.load32 0)).map fun m =>
      (m, copy.bytes (variantPayloadOffset inner) (shape m).size)

/-- Every `match` with an arm for the member binds it and its bytes. -/
def SeenByMatch (m : ResolvedType) (payload : List (BitVec 8)) : Prop :=
  ∀ arms : List Name, (shape m).name ∈ arms → E.dispatch b offset arms = some (m, payload)

end ErrorType

/-- The value that a statement passes on. -/
def Statement.source (src : Blob) : Statement shape → Option Outcome
  | .tryCall callee | .forward callee => callee.error.read src callee.errorOffset
  | .returnErr (.error E) | .returnValue (.error E) => E.read src 0
  | .returnErr (.member m) | .returnValue (.member m) => some (.failed m (src.bytes 0 (shape m).size))

/-- The flow keeps a value: `try` goes on without an error, and everything else leaves the value in
    the last slot, where `match` finds it. -/
def Statement.Keeps (caller : Returns shape) (flow : Option Flow) : Statement shape → Outcome → Prop
  | .tryCall _, .ok => flow = some .continues
  | _, v => ∃ b, flow = some (.returns b) ∧ caller.error.read b caller.errorOffset = some v ∧
      ∀ m p, v = .failed m p → caller.error.SeenByMatch b caller.errorOffset m p

end Mirage.Mirgen
