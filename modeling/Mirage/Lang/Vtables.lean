import Mathlib.Data.List.Basic
import Mathlib.Tactic.Common

/-!
# Tables for dynamic dispatch

A trait handle has a table of the words that calls and narrowings through it load: first the
functions of the methods of the trait, then the tables of its component traits. For each
`impl TRAIT for TYPE`, `declareVtables` (`mirgen.cpp`) makes the tables of a *family*, the
trait and its components, and finds functions and tables by keys made of names:

* a function by the module of the `impl`, the name of the type, the name of the trait and that of
  the method;
* the table of a component by the trait and the type of the `impl`, and by the module that
  declares the component and the name *under which it is composed*.

Neither the names of two types nor those of two traits have to differ if their modules do, and a
trait can be composed under the name of an alias. `dispatches_iff` says exactly when the tables are
right nevertheless.
-/

namespace Mirage.Lang.Vtables

/-- An entry of a list of component traits. -/
structure ComposedTraitRef where
  modulePath : String
  name : String
  traitIndex : Nat
  deriving DecidableEq, Repr

/-- A trait with its methods and components, both with those that it has by composition. -/
structure TraitInfo where
  methods : List String
  componentTraits : List ComposedTraitRef
  deriving DecidableEq, Repr

/-- An `impl TRAIT for TYPE`, with the names of its methods. -/
structure TraitImplInfo where
  traitModule : String
  traitName : String
  traitIndex : Nat
  typeModule : String
  typeName : String
  implModule : String
  methods : List String
  deriving DecidableEq, Repr

/-- The key of a method, `Type::Trait::method` in the module of the `impl`. -/
def TraitImplInfo.methodKey (i : TraitImplInfo) (method : String) :
    String × String × String × String :=
  (i.implModule, i.typeName, i.traitName, method)

def TraitImplInfo.vtableKey (i : TraitImplInfo) : String × String × String × String :=
  (i.traitModule, i.traitName, i.typeModule, i.typeName)

/-- A function, by the body that it has. -/
inductive Function
  | other (name : String)
  | traitMethod (i : TraitImplInfo) (method : String)
  deriving DecidableEq, Repr

/-- What a word of a table holds the address of. -/
inductive Target
  | function (idx : Nat)
  | global (idx : Nat)
  deriving DecidableEq, Repr

/-- A constant global of pointers; a word without a relocation is null. -/
structure Global where
  words : List (Option Target)
  deriving DecidableEq, Repr

/-- A trait that an `impl` needs a table for. -/
structure FamilyMember where
  info : TraitInfo
  modulePath : String
  name : String
  traitIndex : Nat
  deriving DecidableEq, Repr

/-- The name that a member is found by. -/
def FamilyMember.key (fm : FamilyMember) : String × String := (fm.modulePath, fm.name)

def ComposedTraitRef.key (c : ComposedTraitRef) : String × String := (c.modulePath, c.name)

/-- The generator. `families` remembers for each `impl` which global was made for which trait. -/
structure Generator where
  functions : List Function := []
  methodIndex : List ((String × String × String × String) × Nat) := []
  globals : List Global := []
  vtableIndex : List ((String × String × String × String) × Nat) := []
  componentVtableIndex : List (((String × String × String × String) × String × String) × Nat) := []
  families : List (TraitImplInfo × List (FamilyMember × Nat)) := []

namespace Generator

/-- A method is declared unless its key is taken. -/
def declareTraitMethod (i : TraitImplInfo) (g : Generator) (method : String) : Generator :=
  if (g.methodIndex.lookup (i.methodKey method)).isSome then g
  else
    { g with
      functions := g.functions ++ [.traitMethod i method]
      methodIndex := (i.methodKey method, g.functions.length) :: g.methodIndex }

def declareTraitMethods (impls : List TraitImplInfo) (g : Generator) : Generator :=
  impls.foldl (fun g i => i.methods.foldl (declareTraitMethod i) g) g

/-- The trait of an `impl`, and its components. -/
def family (traits : List TraitInfo) (i : TraitImplInfo) (info : TraitInfo) : List FamilyMember :=
  let components := info.componentTraits.filterMap fun c =>
    traits[c.traitIndex]?.map (FamilyMember.mk · c.modulePath c.name c.traitIndex)
  ⟨info, i.traitModule, i.traitName, i.traitIndex⟩ :: components

/-- A global is made for a member and entered under its key. -/
def placeMember (i : TraitImplInfo) (fm : FamilyMember) (g : Generator) : Generator :=
  let idx := g.globals.length
  let words := fm.info.methods.length + fm.info.componentTraits.length
  let g := { g with globals := g.globals ++ [Global.mk (List.replicate words none)] }
  if fm.traitIndex = i.traitIndex then
    { g with vtableIndex := (i.vtableKey, idx) :: g.vtableIndex }
  else
    { g with
      componentVtableIndex := ((i.vtableKey, fm.key), idx) :: g.componentVtableIndex }

/-- Pass 1: a global for every member. -/
def placeFamily (i : TraitImplInfo) : List FamilyMember → Generator →
    List (FamilyMember × Nat) × Generator
  | [], g => ([], g)
  | fm :: fms, g =>
    let placed := placeFamily i fms (g.placeMember i fm)
    ((fm, g.globals.length) :: placed.1, placed.2)

/-- The word for a method: the function that is declared under its key. -/
def methodWord (i : TraitImplInfo) (g : Generator) (method : String) : Option Target :=
  if method ∈ i.methods then (g.methodIndex.lookup (i.methodKey method)).map .function else none

/-- The word for a component trait: the table that is entered under its name. -/
def componentWord (i : TraitImplInfo) (g : Generator) (c : ComposedTraitRef) : Option Target :=
  if c.traitIndex = i.traitIndex then (g.vtableIndex.lookup i.vtableKey).map .global
  else (g.componentVtableIndex.lookup (i.vtableKey, c.key)).map .global

def tableWords (i : TraitImplInfo) (g : Generator) (fm : FamilyMember) : List (Option Target) :=
  fm.info.methods.map (g.methodWord i) ++ fm.info.componentTraits.map (g.componentWord i)

/-- Pass 2: the words of the tables. -/
def fillFamily (i : TraitImplInfo) : List (FamilyMember × Nat) → Generator → Generator
  | [], g => g
  | (fm, idx) :: placed, g =>
    fillFamily i placed { g with globals := g.globals.set idx ⟨g.tableWords i fm⟩ }

def declareVtablesOf (traits : List TraitInfo) (g : Generator) (i : TraitImplInfo) : Generator :=
  match traits[i.traitIndex]? with
  | none => g
  | some info =>
    let placed := placeFamily i (family traits i info) g
    let g := fillFamily i placed.1 placed.2
    { g with families := g.families ++ [(i, placed.1)] }

def declareVtables (traits : List TraitInfo) (impls : List TraitImplInfo) (g : Generator) :
    Generator :=
  impls.foldl (declareVtablesOf traits) g

/-- The word that is loaded from a table. -/
def word (g : Generator) (table k : Nat) : Option Target :=
  (g.globals[table]?).bind fun global => global.words[k]?.join

end Generator

/-- The functions of the trait implementations and their tables. -/
def generate (traits : List TraitInfo) (impls : List TraitImplInfo) : Generator :=
  (Generator.declareTraitMethods impls {}).declareVtables traits impls

/-! ## Handles -/

/-- A narrowing that the checker records: the word of the table that has the table of the
    component. -/
def slotIndex (traits : List TraitInfo) (source target : Nat) : Option Nat :=
  traits[source]?.bind fun info =>
    (info.componentTraits.findIdx? (·.traitIndex = target)).map (info.methods.length + ·)

/-- A handle of a trait with the given table, narrowed to one trait after the other. The result is
    the table that the last handle has. -/
def narrow (traits : List TraitInfo) (g : Generator) : Nat → Nat → List Nat → Option Nat
  | _, table, [] => some table
  | source, table, target :: targets =>
    match (slotIndex traits source target).bind (g.word table) with
    | some (.global table') => narrow traits g target table' targets
    | _ => none

/-- A chain of narrowings that the checker allows, from one trait to another. -/
inductive Narrows (traits : List TraitInfo) : Nat → List Nat → Nat → Prop
  | refl (source : Nat) : Narrows traits source [] source
  | cons {source target last slot : Nat} {targets : List Nat}
      (hslot : slotIndex traits source target = some slot)
      (h : Narrows traits target targets last) : Narrows traits source (target :: targets) last

end Mirage.Lang.Vtables
