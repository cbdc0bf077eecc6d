import Mathlib.Data.Fintype.Card
import Mathlib.Logic.Function.Basic
import Mathlib.Logic.Relation
import Mathlib.Tactic.Common

/-!
# Trait composition

A trait declares methods and composes other traits. `layoutTrait` (`type_resolver.cpp`) makes from
that its flat list of methods, which is the layout of its tables, and the list of all traits that
it has by composition. It does so when the trait is first asked for, and asks for other traits in
two phases: for those that the signatures of its methods have by value, then for those that it
composes.

Two guards keep this from running in circles. A trait that is being laid out is not laid out again
(`resolving`), which is no error as a value of a trait has the same size whatever its methods are.
A trait that is composed while it is composing others itself (`compositionStack`) is an error.
-/

namespace Mirage.Lang.Traits

variable {n : Nat}

/-- A type in the signature of a method, in a program with `n` traits. -/
inductive Ty (n : Nat)
  | builtin (name : String)
  | trait (slot : Fin n)
  | pointer (pointee : Ty n)
  | slice (element : Ty n)
  | array (element : Ty n) (size : Nat)
  deriving DecidableEq, Repr

/-- The traits that the type has by value. What a pointer or a slice leads to is not laid out. -/
def Ty.mentions : Ty n → List (Fin n)
  | .trait slot => [slot]
  | .array element _ => element.mentions
  | .builtin _ | .pointer _ | .slice _ => []

structure TraitMethodInfo (n : Nat) where
  name : String
  isMutSelf : Bool
  params : List (Ty n)
  returnTypes : List (Ty n)
  deriving DecidableEq, Repr

def TraitMethodInfo.mentions (m : TraitMethodInfo n) : List (Fin n) :=
  (m.params ++ m.returnTypes).flatMap Ty.mentions

def traitMethodsConflict (a b : TraitMethodInfo n) : Bool :=
  a.isMutSelf ≠ b.isMutSelf || a.params ≠ b.params || a.returnTypes ≠ b.returnTypes

/-- A declaration, `composedTraits` with the names that are written there. -/
structure TraitDecl (n : Nat) where
  modulePath : String
  name : String
  methods : List (TraitMethodInfo n)
  composedTraits : List (String × Fin n)
  deriving DecidableEq, Repr

structure ComposedTraitRef (n : Nat) where
  modulePath : String
  name : String
  traitIndex : Fin n
  deriving DecidableEq, Repr

structure TraitInfo (n : Nat) where
  modulePath : String
  name : String
  methods : List (TraitMethodInfo n) := []
  composedTraits : List (ComposedTraitRef n) := []
  componentTraits : List (ComposedTraitRef n) := []
  layoutDone : Bool := false
  deriving DecidableEq, Repr

inductive Diagnostic
  /-- A circular composition, with the names of the traits from one to itself. -/
  | circular (chain : List String)
  | duplicate (named trait : String)
  /-- Two methods of one name. `prior` is the trait that the first is from, if it is not the own. -/
  | conflict (trait method prior named : String)
  deriving DecidableEq, Repr

structure State (n : Nat) where
  traits : Fin n → TraitInfo n
  resolving : List (Fin n)
  compositionStack : List (Fin n)
  diagnostics : List Diagnostic

def State.report (st : State n) (ds : List Diagnostic) : State n :=
  { st with diagnostics := st.diagnostics ++ ds }

/-- The chain that is reported: the stack from the trait on. -/
def State.chain (st : State n) (target : Fin n) : List String :=
  ((st.compositionStack.dropWhile (· ≠ target)).map fun k => (st.traits k).name) ++
    [(st.traits target).name]

/-- What `layoutTrait` has gathered. `contributor` has for every name of a method the trait that it
    was composed from, and nothing for the own methods. -/
structure Layout (n : Nat) where
  methods : List (TraitMethodInfo n)
  contributor : List (String × String)
  composedTraits : List (ComposedTraitRef n)
  componentTraits : List (ComposedTraitRef n)

/-- A method of a composed trait is added unless there is one of its name. -/
def mergeMethod (trait named : String) (acc : Layout n × List Diagnostic)
    (m : TraitMethodInfo n) : Layout n × List Diagnostic :=
  match acc.1.methods.find? (·.name = m.name) with
  | none =>
    ({ acc.1 with
      methods := acc.1.methods ++ [m]
      contributor := (m.name, named) :: acc.1.contributor }, acc.2)
  | some existing =>
    if traitMethodsConflict existing m then
      let prior := (acc.1.contributor.lookup m.name).getD ""
      (acc.1, acc.2 ++ [.conflict trait m.name prior named])
    else acc

def addComponent (components : List (ComposedTraitRef n)) (c : ComposedTraitRef n) :
    List (ComposedTraitRef n) :=
  if c.traitIndex ∈ components.map (·.traitIndex) then components else components ++ [c]

/-- One entry of the list of composed traits, after its trait was asked for. -/
def composeTrait (decl : TraitDecl n) (named : String) (target : Fin n) (layout : Layout n)
    (st : State n) : Layout n × State n :=
  if target ∈ st.compositionStack then (layout, st.report [.circular (st.chain target)])
  else if target ∈ layout.composedTraits.map (·.traitIndex) then
    (layout, st.report [.duplicate named decl.name])
  else
    let composed := st.traits target
    let ref : ComposedTraitRef n := ⟨composed.modulePath, named, target⟩
    let merged := composed.methods.foldl (mergeMethod decl.name named) (layout, [])
    ({ merged.1 with
      composedTraits := layout.composedTraits ++ [ref]
      componentTraits :=
        (composed.componentTraits ++ [ref]).foldl addComponent layout.componentTraits },
      st.report merged.2)

/-- The second phase, entry by entry. -/
def composeTraits (resolve : Fin n → State n → Option (State n)) (decl : TraitDecl n) :
    List (String × Fin n) → Layout n → State n → Option (Layout n × State n)
  | [], layout, st => some (layout, st)
  | (named, target) :: rest, layout, st =>
    (resolve target st).bind fun st =>
      let next := composeTrait decl named target layout st
      composeTraits resolve decl rest next.1 next.2

/-- The first phase: the traits in the signatures. -/
def resolveMentions (resolve : Fin n → State n → Option (State n)) :
    List (Fin n) → State n → Option (State n)
  | [], st => some st
  | target :: rest, st => (resolve target st).bind (resolveMentions resolve rest)

def layoutTrait (resolve : Fin n → State n → Option (State n)) (decl : TraitDecl n) (slot : Fin n)
    (st : State n) : Option (State n) :=
  (resolveMentions resolve (decl.methods.flatMap TraitMethodInfo.mentions) st).bind fun st =>
    let layout : Layout n := ⟨decl.methods, decl.methods.map fun m => (m.name, ""), [], []⟩
    let pushed := { st with compositionStack := st.compositionStack ++ [slot] }
    (composeTraits resolve decl decl.composedTraits layout pushed).map fun (layout, st) =>
      { st with
        compositionStack := st.compositionStack.dropLast
        traits := Function.update st.traits slot
          ⟨decl.modulePath, decl.name, layout.methods, layout.composedTraits,
            layout.componentTraits, true⟩ }

/-- A trait is asked for. The fuel bounds how deep the calls are nested. -/
def resolveFinalFull (decls : Fin n → TraitDecl n) : Nat → Fin n → State n → Option (State n)
  | 0, _, _ => none
  | fuel + 1, slot, st =>
    if (st.traits slot).layoutDone then some st
    else if slot ∈ st.resolving then some st
    else
      let marked := { st with resolving := slot :: st.resolving }
      (layoutTrait (resolveFinalFull decls fuel) (decls slot) slot marked).map fun st =>
        { st with resolving := st.resolving.erase slot }

/-- The traits are declared, and none is laid out. -/
def initialState (decls : Fin n → TraitDecl n) : State n where
  traits k := { modulePath := (decls k).modulePath, name := (decls k).name }
  resolving := []
  compositionStack := []
  diagnostics := []

/-- The traits are asked for in some order. No two calls for one trait are nested. -/
def layoutAll (decls : Fin n → TraitDecl n) (order : List (Fin n)) : Option (State n) :=
  resolveMentions (resolveFinalFull decls (n + 1)) order (initialState decls)

/-! ## What the layout should be -/

def Mentions (decls : Fin n → TraitDecl n) (k j : Fin n) : Prop :=
  j ∈ (decls k).methods.flatMap TraitMethodInfo.mentions

def Composes (decls : Fin n → TraitDecl n) (k j : Fin n) : Prop :=
  j ∈ (decls k).composedTraits.map Prod.snd

instance (decls : Fin n → TraitDecl n) (k j : Fin n) : Decidable (Mentions decls k j) :=
  inferInstanceAs (Decidable (_ ∈ _))

instance (decls : Fin n → TraitDecl n) (k j : Fin n) : Decidable (Composes decls k j) :=
  inferInstanceAs (Decidable (_ ∈ _))

/-- Methods are added in order, those skipped whose name is there already. -/
def addMethods (methods added : List (TraitMethodInfo n)) : List (TraitMethodInfo n) :=
  added.foldl (fun methods m =>
    if m.name ∈ methods.map (·.name) then methods else methods ++ [m]) methods

/-- The own methods of a trait, then those of the traits that it composes directly. -/
def flattened (decls : Fin n → TraitDecl n) (traits : Fin n → TraitInfo n) (k : Fin n) :
    List (TraitMethodInfo n) :=
  (decls k).composedTraits.foldl (fun methods c => addMethods methods (traits c.2).methods)
    (decls k).methods

/-- No trait has itself by composition. -/
def Acyclic (decls : Fin n → TraitDecl n) : Prop :=
  ∀ k, ¬ Relation.TransGen (Composes decls) k k

def State.circularReported (st : State n) : Prop :=
  ∃ chain, Diagnostic.circular chain ∈ st.diagnostics

/-- The traits of a list of references. -/
def indices (refs : List (ComposedTraitRef n)) : List (Fin n) := refs.map (·.traitIndex)

/-- All traits are laid out right. -/
structure Flattened (decls : Fin n → TraitDecl n) (st : State n) : Prop where
  methods : Acyclic decls → ∀ k, (st.traits k).methods = flattened decls st.traits k
  nodup : Acyclic decls → ∀ k, (indices (st.traits k).componentTraits).Nodup
  components : Acyclic decls → ∀ k j, j ∈ indices (st.traits k).componentTraits ↔
    Relation.TransGen (Composes decls) k j
  circular : st.circularReported ↔ ¬ Acyclic decls

end Mirage.Lang.Traits
