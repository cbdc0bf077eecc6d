import Mathlib.Data.List.Basic
import Mathlib.Tactic.Common

/-!
# The tables of generic instances

The model of the tables that `sema::Program` keeps about the instances of generic functions and
methods (`sema_check.cpp`), and of the scratch check of a file that `#compile_only_if` excludes
(`sema.cpp`). An instance is known by its index in `instances`, and five tables hold indices.

Instances are made on demand while code is checked, and to make one is to check more code: the
default values of its parameters before it is registered, its body afterwards. `Work` is what
the checker asks for in some code, as a tree: a request with what is asked for in the signature
and in the body of the declaration it names. What is in a tree does not say that it is looked at:
a request for an instance that is cached looks at nothing. What a name stands for when it is looked
up is part of the request, as the symbols of a module change while a file is checked that is not
part of it. A request through a bare import is a request to the module of its origin.
-/

namespace Mirage.Lang.Generic

/-- A generic argument: a type or a value, or what stands for it while a declaration is checked
    with its parameters unbound. Unbound types are told apart by the traits that bound them. -/
inductive GenericArgValue (Ty : Type)
  | type (ty : Ty)
  | value (v : Int) (scalarType : Ty)
  | unboundType (bound : Option Nat)
  | unboundValue
  deriving DecidableEq, Repr

structure GenericParam where
  isType : Bool
  bound : Option Nat := none
  deriving DecidableEq, Repr

/-- A generic function, by its name and the file that declares it. -/
structure FunctionDecl where
  name : String
  file : String
  genericParams : List GenericParam
  deriving DecidableEq, Repr

/-- A method of a generic type. Its parameters are those of the `impl` block. -/
structure MethodDecl where
  name : String
  file : String
  implGenericParams : List GenericParam
  deriving DecidableEq, Repr

structure GenericInstanceKey (Ty : Type) where
  modulePath : String
  declName : String
  args : List (GenericArgValue Ty)
  deriving DecidableEq, Repr

/-- An instance. One with neither a function nor a method stands for a request that failed. -/
structure GenericFunctionInstance (Ty : Type) where
  decl : Option FunctionDecl := none
  implDecl : Option MethodDecl := none
  modulePath : String := ""
  args : List (GenericArgValue Ty) := []
  bodyChecked : Bool := false
  deriving DecidableEq, Repr

/-- The tables of a program. `exprs` are the instances with tables of expressions of their own. -/
structure Tables (Ty : Type) where
  instances : List (GenericFunctionInstance Ty) := []
  lookup : List (GenericInstanceKey Ty × Nat) := []
  needed : List Nat := []
  exprs : List Nat := []
  templateFn : List (FunctionDecl × Nat) := []
  templateMethod : List (MethodDecl × Nat) := []
  templateCheckDepth : Nat := 0
  deriving DecidableEq, Repr

/-- What some code asks for. -/
inductive Work (Ty : Type)
  /-- An instance of a function. `found` is what has that name, if it is a function. -/
  | function (modulePath declName : String) (args : List (GenericArgValue Ty))
      (found : Option { decl : FunctionDecl // decl.name = declName }) (boundsOk : Bool)
      (signature body : List (Work Ty))
  /-- An instance of a method of an instance of a generic type. -/
  | method (typeModule typeName methodName : String) (args : List (GenericArgValue Ty))
      (found : Option { decl : MethodDecl // decl.name = methodName })
      (signature body : List (Work Ty))
  /-- The check of a generic function at its declaration. -/
  | templateFunction (modulePath : String) (decl : FunctionDecl) (boundsOk : Bool)
      (signature body : List (Work Ty))
  /-- The check of a method of a generic type at its declaration. -/
  | templateMethod (typeModule typeName methodName : String) (params : List GenericParam)
      (found : Option { decl : MethodDecl // decl.name = methodName })
      (signature body : List (Work Ty))

section

variable {Ty : Type} (containsOpaque : Ty → Bool)

/-- An argument without a binding makes a request that is no monomorphization. -/
def argsContainOpaque (args : List (GenericArgValue Ty)) : Bool :=
  args.any fun
    | .type ty => containsOpaque ty
    | .value _ _ => false
    | .unboundType _ => true
    | .unboundValue => true

/-- The arguments of a declaration that is checked with its parameters unbound. -/
def opaqueArgsFor (params : List GenericParam) : List (GenericArgValue Ty) :=
  params.map fun p => if p.isType then .unboundType p.bound else .unboundValue

theorem length_opaqueArgsFor (params : List GenericParam) :
    (opaqueArgsFor params : List (GenericArgValue Ty)).length = params.length :=
  List.length_map _

theorem argsContainOpaque_opaqueArgsFor {params : List GenericParam} (h : params ≠ []) :
    argsContainOpaque containsOpaque (opaqueArgsFor params) = true := by
  obtain ⟨p, ps, rfl⟩ := List.exists_cons_of_ne_nil h
  rw [opaqueArgsFor, List.map_cons, argsContainOpaque, List.any_cons]
  split_ifs
  · rfl
  · rfl

end

namespace Tables

variable {Ty : Type} [DecidableEq Ty]

/-- `unordered_map::emplace`: an entry that is there stays. -/
def emplace (table : List (GenericInstanceKey Ty × Nat)) (key : GenericInstanceKey Ty) (idx : Nat) :
    List (GenericInstanceKey Ty × Nat) :=
  if (table.lookup key).isSome then table else (key, idx) :: table

/-- An assignment to the entry of a declaration. -/
def assign {Decl : Type} [DecidableEq Decl] (table : List (Decl × Nat)) (decl : Decl) (idx : Nat) :
    List (Decl × Nat) :=
  (decl, idx) :: table.filter (·.1 ≠ decl)

/-- Code outside of templates needs the instance emitted. -/
def markNeeded (idx : Nat) (t : Tables Ty) : Tables Ty :=
  if t.templateCheckDepth = 0 then { t with needed := t.needed.insert idx } else t

def lookupCachedGenericInstance (key : GenericInstanceKey Ty) (t : Tables Ty) :
    Option (Nat × Tables Ty) :=
  (t.lookup.lookup key).map fun idx => (idx, t.markNeeded idx)

/-- A request that failed is cached too. -/
def pushInvalid (key : GenericInstanceKey Ty) (t : Tables Ty) : Nat × Tables Ty :=
  let idx := t.instances.length
  (idx, { t with instances := t.instances ++ [{}], lookup := emplace t.lookup key idx })

def registerGenericInstance (key : GenericInstanceKey Ty) (inst : GenericFunctionInstance Ty)
    (suppressed : Bool) (t : Tables Ty) : Nat × Tables Ty :=
  let idx := t.instances.length
  let t := { t with instances := t.instances ++ [inst], exprs := t.exprs.insert idx }
  if suppressed then (idx, t)
  else (idx, { t with lookup := emplace t.lookup key idx }.markNeeded idx)

/-- Check the body of an instance, once. -/
def checkGenericFunctionInstanceBody (idx : Nat) (body : Tables Ty → Tables Ty) (t : Tables Ty) :
    Tables Ty :=
  match t.instances[idx]? with
  | none => t
  | some inst =>
    if inst.bodyChecked then t
    else
      let t := { t with instances := t.instances.set idx { inst with bodyChecked := true } }
      if inst.decl.isNone && inst.implDecl.isNone then t
      else body { t with exprs := t.exprs.insert idx }

variable (containsOpaque : Ty → Bool)

def instantiateGenericFunction (modulePath declName : String) (args : List (GenericArgValue Ty))
    (found : Option { decl : FunctionDecl // decl.name = declName }) (boundsOk : Bool)
    (signature body : Tables Ty → Tables Ty) (t : Tables Ty) : Nat × Tables Ty :=
  let suppressed := argsContainOpaque containsOpaque args
  let key : GenericInstanceKey Ty := ⟨modulePath, declName, args⟩
  match if suppressed then none else t.lookupCachedGenericInstance key with
  | some cached => cached
  | none =>
    match found with
    | none => t.pushInvalid key
    | some decl =>
      if args.length ≠ decl.1.genericParams.length then t.pushInvalid key
      else
        let registered := (signature t).registerGenericInstance key
          { decl := some decl.1, modulePath, args } suppressed
        if !suppressed && boundsOk then
          (registered.1, registered.2.checkGenericFunctionInstanceBody registered.1 body)
        else registered

def instantiateGenericMethod (typeModule typeName methodName : String)
    (args : List (GenericArgValue Ty)) (found : Option { decl : MethodDecl // decl.name = methodName })
    (signature body : Tables Ty → Tables Ty) (t : Tables Ty) : Option Nat × Tables Ty :=
  match found with
  | none => (none, t)
  | some decl =>
    let suppressed := argsContainOpaque containsOpaque args
    let key : GenericInstanceKey Ty := ⟨typeModule, typeName ++ "::" ++ methodName, args⟩
    match if suppressed then none else t.lookupCachedGenericInstance key with
    | some cached => (some cached.1, cached.2)
    | none =>
      if args.length ≠ decl.1.implGenericParams.length then (none, t)
      else
        let registered := (signature t).registerGenericInstance key
          { implDecl := some decl.1, modulePath := typeModule, args } suppressed
        if suppressed then (some registered.1, registered.2)
        else
          (some registered.1, registered.2.checkGenericFunctionInstanceBody registered.1 body)

/-- The check of a generic function at its declaration: its instance with unbound arguments is
    recorded before its body is checked. -/
def checkTemplateFunction (modulePath : String) (decl : FunctionDecl) (boundsOk : Bool)
    (signature body : Tables Ty → Tables Ty) (t : Tables Ty) : Tables Ty :=
  if decl.genericParams = [] then t
  else
    let t := { t with templateCheckDepth := t.templateCheckDepth + 1 }
    let made := t.instantiateGenericFunction containsOpaque modulePath decl.name
      (opaqueArgsFor decl.genericParams) (some ⟨decl, rfl⟩) boundsOk signature id
    let t := { made.2 with templateFn := assign made.2.templateFn decl made.1 }
    let t := t.checkGenericFunctionInstanceBody made.1 body
    { t with templateCheckDepth := t.templateCheckDepth - 1 }

/-- The instance of a method is recorded for its declaration. -/
def recordTemplateMethod (idx : Nat) (t : Tables Ty) : Tables Ty :=
  match (t.instances[idx]?).bind (·.implDecl) with
  | none => t
  | some decl => { t with templateMethod := assign t.templateMethod decl idx }

/-- The check of a method of a generic type at its declaration. -/
def checkTemplateMethod (typeModule typeName methodName : String) (params : List GenericParam)
    (found : Option { decl : MethodDecl // decl.name = methodName })
    (signature body : Tables Ty → Tables Ty) (t : Tables Ty) : Tables Ty :=
  if params = [] then t
  else
    let made := t.instantiateGenericMethod containsOpaque typeModule typeName methodName
      (opaqueArgsFor params) found signature id
    match made.1 with
    | none => made.2
    | some idx => (made.2.recordTemplateMethod idx).checkGenericFunctionInstanceBody idx body

end Tables

variable {Ty : Type} [DecidableEq Ty] (containsOpaque : Ty → Bool)

mutual

/-- Do what some code asks for. -/
def Work.run : Work Ty → Tables Ty → Tables Ty
  | .function modulePath declName args found boundsOk signature body, t =>
    (t.instantiateGenericFunction containsOpaque modulePath declName args found boundsOk
      (runAll signature) (runAll body)).2
  | .method typeModule typeName methodName args found signature body, t =>
    (t.instantiateGenericMethod containsOpaque typeModule typeName methodName args found
      (runAll signature) (runAll body)).2
  | .templateFunction modulePath decl boundsOk signature body, t =>
    t.checkTemplateFunction containsOpaque modulePath decl boundsOk (runAll signature) (runAll body)
  | .templateMethod typeModule typeName methodName params found signature body, t =>
    t.checkTemplateMethod containsOpaque typeModule typeName methodName params found
      (runAll signature) (runAll body)

def runAll : List (Work Ty) → Tables Ty → Tables Ty
  | [], t => t
  | w :: ws, t => runAll ws (w.run t)

end

/-- The check of a file that is not part of the program: the instances it asked for are dropped
    again. -/
def checkOneExcludedFile (file : List (Work Ty)) (t : Tables Ty) : Tables Ty :=
  let before := t.instances.length
  let t := runAll containsOpaque file t
  if t.instances.length > before then
    { t with
      instances := t.instances.take before
      exprs := t.exprs.filter (· < before)
      needed := t.needed.filter (· < before)
      templateFn := t.templateFn.filter (·.2 < before) }
  else t

/-- What `check_program` does to the tables: checks of its own code and of excluded files. -/
inductive Pass (Ty : Type)
  | check (work : Work Ty)
  | excluded (file : List (Work Ty))

def Pass.run : Pass Ty → Tables Ty → Tables Ty
  | .check work, t => work.run containsOpaque t
  | .excluded file, t => checkOneExcludedFile containsOpaque file t

end Mirage.Lang.Generic
