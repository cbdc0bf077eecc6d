import Mirage.Lang.Ast

/-!
# References to other modules

The walk over the body of an `@init` function that looks for references to other modules: by a
namespace path (`b.config`), by an inline import, or by the plain name of a symbol that a bare
one brings in. A local variable of the same name shadows an import. The walk keeps the names
of all locals it has met in one set, which it only adds to.

Against it stands what the names mean. `usesStmt` lists the places in which an import can
be named, each with the scope there, for any way of keeping scopes (`Scoping`): that of the
walk (`flatScoping`), and that of the checker (`lexicalScoping`), where a scope ends with
its block, an arm binds its capture, and the default of an `$option` sees no locals. The
operands of `asm` can name constants, also ones that were imported bare; the walk does not
look at them.

* `walkStmt_eq`: the walk finds the references of the uses in its own scopes, without `asm`;
* `walkRefs_eq`: these are the references of the body when every use of the name of an import is
  shadowed in both scopes or in neither, and no `asm` names one (`ScopesAgree`).
-/

namespace Mirage.Ast

variable {M : Type}

/-! ## Symbols -/

/-- What the walk asks of a symbol: whether it is an import, and then of what, and whether it
    can be used from other modules. -/
inductive Symbol (M : Type)
  | import (modulePath : M) (isPub : Bool)
  | other

/-- The tables of a module. -/
structure ModuleSymbols (M : Type) where
  symbols : Name → Option (Symbol M)
  bareImportOrigins : Name → Option (M × Name)
  inlineImportPaths : ExprKey → Option M

/-- The modules of a program. -/
abbrev Modules (M : Type) := M → Option (ModuleSymbols M)

/-- A module and the name of one of its symbols. -/
abbrev Ref (M : Type) := M × Name

/-- The module that a namespace path leads to. -/
def resolveNamespaceChain (P : Modules M) (modulePath : M) (isShadowed : Name → Bool) :
    Expr → Option M
  | .importExpr key => (P modulePath).bind fun m => m.inlineImportPaths key
  | .ident _ x =>
    if isShadowed x then none
    else (P modulePath).bind fun m =>
      match m.symbols x with
      | some (.import path _) => some path
      | _ => none
  | .member _ object x =>
    (resolveNamespaceChain P modulePath isShadowed object).bind fun inner =>
      (P inner).bind fun m =>
        match m.symbols x with
        | some (.import path true) => some path
        | _ => none
  | _ => none

/-- The symbol a plain name stands for, if it was imported bare. -/
def bareRef (P : Modules M) (modulePath : M) (isShadowed : Name → Bool) (x : Name) :
    List (Ref M) :=
  if isShadowed x then []
  else (((P modulePath).bind fun m => m.bareImportOrigins x).map fun r => [r]).getD []

/-! ## The walk -/

/-- Whether a name is in the set of locals. -/
def isLocal (locals : List Name) (x : Name) : Bool := locals.contains x

section Walk

variable (P : Modules M) (modulePath : M)

mutual

/-- The references of an expression. It binds no names. -/
def walkExpr (locals : List Name) : Expr → List (Ref M)
  | .literalInteger .. | .literalString .. | .literalChar .. | .literalBool .. | .leaf ..
  | .dotIdent .. | .importExpr .. | .bitsetExpr .. => []
  | .ident _ x => bareRef P modulePath (isLocal locals) x
  | .member _ object x =>
    match resolveNamespaceChain P modulePath (isLocal locals) object with
    | some target => [(target, x)]
    | none => walkExpr locals object
  | .unary _ _ operand | .sizeOf _ operand | .alignOf _ operand | .typeOf _ operand
  | .cast _ operand => walkExpr locals operand
  | .binary _ _ lhs rhs | .assign _ lhs rhs => walkExpr locals lhs ++ walkExpr locals rhs
  | .ternary _ condition thenExpr elseExpr | .whenExpr _ condition thenExpr elseExpr =>
    walkExpr locals condition ++ walkExpr locals thenExpr ++ walkExpr locals elseExpr
  | .call _ callee args => walkExpr locals callee ++ walkExprs locals args
  | .option _ _ es | .structExpr _ _ es | .arrayExpr _ es => walkExprs locals es
  | .compound _ kind es => if kind = .asmExpr then [] else walkExprs locals es
  | .matchExpr _ operand arms => walkExpr locals operand ++ walkMatchArms locals arms

def walkExprs (locals : List Name) : List Expr → List (Ref M)
  | [] => []
  | e :: es => walkExpr locals e ++ walkExprs locals es

def walkMatchArms (locals : List Name) : List MatchArm → List (Ref M)
  | [] => []
  | .variant _ _ value :: arms | .default value :: arms =>
    walkExpr locals value ++ walkMatchArms locals arms
  | .literal pattern value :: arms =>
    walkExpr locals pattern ++ walkExpr locals value ++ walkMatchArms locals arms

end

mutual

/-- The references of a statement, and the locals with those it declares. -/
def walkStmt (locals : List Name) : Stmt → List (Ref M) × List Name
  | .block stmts => walkStmts locals stmts
  | .ifThen condition thenStmt =>
    let r := walkStmt locals thenStmt
    (walkExpr P modulePath locals condition ++ r.1, r.2)
  | .ifElse condition thenStmt elseStmt =>
    let r := walkStmt locals thenStmt
    let r' := walkStmt r.2 elseStmt
    (walkExpr P modulePath locals condition ++ r.1 ++ r'.1, r'.2)
  | .whileStmt condition body =>
    let r := walkStmt locals body
    (walkExpr P modulePath locals condition ++ r.1, r.2)
  | .forIn index element iterable body =>
    let r := walkStmt (element.name :: index.name :: locals) body
    (walkExpr P modulePath locals iterable ++ r.1, r.2)
  | .switchStmt operand arms =>
    let r := walkSwitchArms locals arms
    (walkExpr P modulePath locals operand ++ r.1, r.2)
  | .exprStmt e | .returnErr e => (walkExpr P modulePath locals e, locals)
  | .varDecl decl init =>
    (match init with
      | some e => walkExpr P modulePath locals e
      | none => [], decl.name :: locals)
  | .varDeclGroup decls init =>
    (walkExpr P modulePath locals init, (decls.map Decl.name).reverse ++ locals)
  | .continueStmt | .breakStmt | .asmStmt _ => ([], locals)
  | .returnStmt values | .returnOk values => (walkExprs P modulePath locals values, locals)
  | .deferStmt body => walkStmt locals body
  | .whenStmt _ condition thenBlock elseBlock =>
    let r := walkStmts locals thenBlock
    let r' := walkStmts r.2 elseBlock
    (walkExpr P modulePath locals condition ++ r.1 ++ r'.1, r'.2)

def walkStmts (locals : List Name) : List Stmt → List (Ref M) × List Name
  | [] => ([], locals)
  | stmt :: stmts =>
    let r := walkStmt locals stmt
    let r' := walkStmts r.2 stmts
    (r.1 ++ r'.1, r'.2)

def walkSwitchArms (locals : List Name) : List SwitchArm → List (Ref M) × List Name
  | [] => ([], locals)
  | .variant _ _ body :: arms | .default body :: arms =>
    let r := walkStmt locals body
    let r' := walkSwitchArms r.2 arms
    (r.1 ++ r'.1, r'.2)
  | .literal pattern body :: arms =>
    let r := walkStmt locals body
    let r' := walkSwitchArms r.2 arms
    (walkExpr P modulePath locals pattern ++ r.1 ++ r'.1, r'.2)

end

/-- The references the walk finds in the body of a function. -/
def walkRefs (body : Stmt) : List (Ref M) := (walkStmt P modulePath [] body).1

end Walk

/-! ## Uses of names -/

/-- A way of keeping scopes. -/
structure Scoping (σ : Type) where
  declare : Name → σ → σ
  /-- A variable of a loop or a group, which may be omitted. -/
  declareNamed : Name → σ → σ
  capture : Option Decl → σ → σ
  /-- The scope of the default of an `$option`. -/
  constant : σ → σ
  /-- The scope behind a block, from the scopes before it and at its end. -/
  leave : σ → σ → σ

/-- The scopes of the walk. -/
def flatScoping : Scoping (List Name) where
  declare x locals := x :: locals
  declareNamed x locals := x :: locals
  capture _ locals := locals
  constant locals := locals
  leave _ inner := inner

/-- The scopes of the language. -/
def lexicalScoping : Scoping (List Name) where
  declare x locals := x :: locals
  declareNamed x locals := if x = "_" then locals else x :: locals
  capture d locals :=
    match d with
    | some d => d.name :: locals
    | none => locals
  constant _ := []
  leave outer _ := outer

/-- Two ways of keeping scopes at once. -/
def Scoping.prod {σ τ : Type} (S : Scoping σ) (T : Scoping τ) : Scoping (σ × τ) where
  declare x s := (S.declare x s.1, T.declare x s.2)
  declareNamed x s := (S.declareNamed x s.1, T.declareNamed x s.2)
  capture d s := (S.capture d s.1, T.capture d s.2)
  constant s := (S.constant s.1, T.constant s.2)
  leave outer inner := (S.leave outer.1 inner.1, T.leave outer.2 inner.2)

/-- A place in which the name of an import can stand. -/
inductive Use
  | chain (e : Expr)
  | asmOperand (x : Name)

/-- The names among the operands of an `asm` expression. -/
def asmNames (operands : List Expr) : List Name :=
  operands.filterMap fun
    | .ident _ x => some x
    | _ => none

/-- A name or an inline import, followed by the names of members. -/
def isChain : Expr → Bool
  | .ident .. | .importExpr _ => true
  | .member _ object _ => isChain object
  | _ => false

section Uses

variable {σ : Type} (S : Scoping σ)

mutual

/-- The uses in an expression, each chain as a whole, with the scopes there. -/
def usesExpr (s : σ) : Expr → List (Use × σ)
  | .literalInteger .. | .literalString .. | .literalChar .. | .literalBool .. | .leaf ..
  | .dotIdent .. | .bitsetExpr .. => []
  | .ident key x => [(.chain (.ident key x), s)]
  | .importExpr key => [(.chain (.importExpr key), s)]
  | .member key object x =>
    if isChain object then [(.chain (.member key object x), s)] else usesExpr s object
  | .unary _ _ operand | .sizeOf _ operand | .alignOf _ operand | .typeOf _ operand
  | .cast _ operand => usesExpr s operand
  | .binary _ _ lhs rhs | .assign _ lhs rhs => usesExpr s lhs ++ usesExpr s rhs
  | .ternary _ condition thenExpr elseExpr | .whenExpr _ condition thenExpr elseExpr =>
    usesExpr s condition ++ usesExpr s thenExpr ++ usesExpr s elseExpr
  | .call _ callee args => usesExpr s callee ++ usesExprs s args
  | .option _ _ es => usesExprs (S.constant s) es
  | .structExpr _ _ es | .arrayExpr _ es => usesExprs s es
  | .compound _ kind es =>
    if kind = .asmExpr then (asmNames es).map fun x => (.asmOperand x, s) else usesExprs s es
  | .matchExpr _ operand arms => usesExpr s operand ++ usesMatchArms s arms

def usesExprs (s : σ) : List Expr → List (Use × σ)
  | [] => []
  | e :: es => usesExpr s e ++ usesExprs s es

def usesMatchArms (s : σ) : List MatchArm → List (Use × σ)
  | [] => []
  | .variant _ capture value :: arms =>
    usesExpr (S.capture capture s) value ++ usesMatchArms s arms
  | .literal pattern value :: arms =>
    usesExpr s pattern ++ usesExpr s value ++ usesMatchArms s arms
  | .default value :: arms => usesExpr s value ++ usesMatchArms s arms

end

mutual

/-- The uses in a statement, and the scope behind it. -/
def usesStmt (s : σ) : Stmt → List (Use × σ) × σ
  | .block stmts =>
    let r := usesStmts s stmts
    (r.1, S.leave s r.2)
  | .ifThen condition thenStmt =>
    let r := usesStmt s thenStmt
    (usesExpr S s condition ++ r.1, S.leave s r.2)
  | .ifElse condition thenStmt elseStmt =>
    let r := usesStmt s thenStmt
    let r' := usesStmt (S.leave s r.2) elseStmt
    (usesExpr S s condition ++ r.1 ++ r'.1, S.leave (S.leave s r.2) r'.2)
  | .whileStmt condition body =>
    let r := usesStmt s body
    (usesExpr S s condition ++ r.1, S.leave s r.2)
  | .forIn index element iterable body =>
    let r := usesStmt (S.declareNamed element.name (S.declareNamed index.name s)) body
    (usesExpr S s iterable ++ r.1, S.leave s r.2)
  | .switchStmt operand arms =>
    let r := usesSwitchArms s arms
    (usesExpr S s operand ++ r.1, r.2)
  | .exprStmt e | .returnErr e => (usesExpr S s e, s)
  | .varDecl decl init =>
    (match init with
      | some e => usesExpr S s e
      | none => [], S.declare decl.name s)
  | .varDeclGroup decls init =>
    (usesExpr S s init, decls.foldl (fun s d => S.declareNamed d.name s) s)
  | .continueStmt | .breakStmt => ([], s)
  | .asmStmt names => (names.map fun x => (.asmOperand x, s), s)
  | .returnStmt values | .returnOk values => (usesExprs S s values, s)
  -- the body of a `defer` is checked in the scope around it
  | .deferStmt body => usesStmt s body
  | .whenStmt _ condition thenBlock elseBlock =>
    let r := usesStmts s thenBlock
    let r' := usesStmts (S.leave s r.2) elseBlock
    (usesExpr S s condition ++ r.1 ++ r'.1, S.leave (S.leave s r.2) r'.2)

def usesStmts (s : σ) : List Stmt → List (Use × σ) × σ
  | [] => ([], s)
  | stmt :: stmts =>
    let r := usesStmt s stmt
    let r' := usesStmts r.2 stmts
    (r.1 ++ r'.1, r'.2)

def usesSwitchArms (s : σ) : List SwitchArm → List (Use × σ) × σ
  | [] => ([], s)
  | .variant _ capture body :: arms =>
    let r := usesStmt (S.capture capture s) body
    let r' := usesSwitchArms (S.leave s r.2) arms
    (r.1 ++ r'.1, r'.2)
  | .literal pattern body :: arms =>
    let r := usesStmt s body
    let r' := usesSwitchArms (S.leave s r.2) arms
    (usesExpr S s pattern ++ r.1 ++ r'.1, r'.2)
  | .default body :: arms =>
    let r := usesStmt s body
    let r' := usesSwitchArms (S.leave s r.2) arms
    (r.1 ++ r'.1, r'.2)

end

end Uses

/-- The references of a chain: the longest path that leads to a module, and the member behind
    it, or a plain name that was imported bare. -/
def chainRefs (P : Modules M) (modulePath : M) (isShadowed : Name → Bool) : Expr → List (Ref M)
  | .ident _ x => bareRef P modulePath isShadowed x
  | .member _ object x =>
    match resolveNamespaceChain P modulePath isShadowed object with
    | some target => [(target, x)]
    | none => chainRefs P modulePath isShadowed object
  | _ => []

/-- The references of a use. -/
def useRefs (P : Modules M) (modulePath : M) (isShadowed : Name → Bool) : Use → List (Ref M)
  | .chain e => chainRefs P modulePath isShadowed e
  | .asmOperand x => bareRef P modulePath isShadowed x

/-- The references of the body of a function, under the scoping of the language. -/
def lexicalRefs (P : Modules M) (modulePath : M) (body : Stmt) : List (Ref M) :=
  (usesStmt lexicalScoping [] body).1.flatMap fun u => useRefs P modulePath (isLocal u.2) u.1

/-- The name a chain begins with. -/
def chainName : Expr → Option Name
  | .ident _ x => some x
  | .member _ object _ => chainName object
  | _ => none

/-- The name of an import, as a namespace or bare. -/
def IsImport (P : Modules M) (modulePath : M) (x : Name) : Prop :=
  ∃ m, P modulePath = some m ∧
    ((∃ path isPub, m.symbols x = some (.import path isPub)) ∨ (m.bareImportOrigins x).isSome)

/-- A use means the same in the set of all locals before it and in the scope there. -/
def UseAgrees (P : Modules M) (modulePath : M) (before scope : List Name) : Use → Prop
  | .chain e => ∀ x, chainName e = some x → IsImport P modulePath x → (x ∈ before ↔ x ∈ scope)
  | .asmOperand x => IsImport P modulePath x → x ∈ scope

/-- Every use of the name of an import is shadowed by a local in scope exactly when a declaration
    of a local of this name stands before it in the body, and no `asm` names an import. -/
def ScopesAgree (P : Modules M) (modulePath : M) (body : Stmt) : Prop :=
  ∀ u ∈ (usesStmt (flatScoping.prod lexicalScoping) ([], []) body).1,
    UseAgrees P modulePath u.2.1 u.2.2 u.1

/-! ## What the walk finds -/

section Finds

variable {P : Modules M} {modulePath : M}

theorem resolve_of_not_chain {isShadowed : Name → Bool} : ∀ {e : Expr}, isChain e = false →
    resolveNamespaceChain P modulePath isShadowed e = none
  | .member key object x, h => by
    rw [resolveNamespaceChain, resolve_of_not_chain (e := object) h, Option.bind_none]
  | .ident .., h | .importExpr .., h => nomatch h
  | .literalInteger .., _ | .literalString .., _ | .literalChar .., _ | .literalBool .., _
  | .leaf .., _ | .dotIdent .., _ | .unary .., _ | .binary .., _ | .ternary .., _
  | .whenExpr .., _ | .assign .., _ | .call .., _ | .sizeOf .., _ | .alignOf .., _
  | .typeOf .., _ | .option .., _ | .cast .., _ | .bitsetExpr .., _ | .structExpr .., _
  | .arrayExpr .., _ | .matchExpr .., _ | .compound .., _ => rfl

theorem walkExpr_chain {locals : List Name} : ∀ {e : Expr}, isChain e = true →
    walkExpr P modulePath locals e = chainRefs P modulePath (isLocal locals) e
  | .ident .., _ | .importExpr .., _ => rfl
  | .member key object x, h => by
    rw [walkExpr, chainRefs, walkExpr_chain (e := object) h]

/-- What the walk makes of a use. -/
def seenRefs (P : Modules M) (modulePath : M) (isShadowed : Name → Bool) : Use → List (Ref M)
  | .chain e => chainRefs P modulePath isShadowed e
  | .asmOperand _ => []

/-- The references the walk sees in a list of uses. -/
def refsOf (P : Modules M) (modulePath : M) (us : List (Use × List Name)) : List (Ref M) :=
  us.flatMap fun u => seenRefs P modulePath (isLocal u.2) u.1

theorem refsOf_append (us vs : List (Use × List Name)) :
    refsOf P modulePath (us ++ vs) = refsOf P modulePath us ++ refsOf P modulePath vs :=
  List.flatMap_append

theorem refsOf_singleton (e : Expr) (s : List Name) :
    refsOf P modulePath [(.chain e, s)] = chainRefs P modulePath (isLocal s) e :=
  List.append_nil _

/-- The walk sees nothing in `asm`. -/
theorem refsOf_asm (xs : List Name) (s : List Name) :
    refsOf P modulePath (xs.map fun x => (.asmOperand x, s)) = [] := by
  rw [refsOf, List.flatMap_map]
  exact List.flatMap_eq_nil_iff.2 fun _ _ => rfl

mutual

theorem walkExpr_eq (s : List Name) : ∀ e : Expr,
    walkExpr P modulePath s e = refsOf P modulePath (usesExpr flatScoping s e)
  | .literalInteger .. | .literalString .. | .literalChar .. | .literalBool .. | .leaf ..
  | .dotIdent .. | .bitsetExpr .. => rfl
  | .ident key x => (refsOf_singleton (.ident key x) s).symm
  | .importExpr key => (refsOf_singleton (.importExpr key) s).symm
  | .member key object x => by
    rw [usesExpr]
    cases h : isChain object with
    | true =>
      rw [if_pos rfl, refsOf_singleton]
      exact walkExpr_chain (e := .member key object x) h
    | false => rw [if_neg (by decide), walkExpr, resolve_of_not_chain h, walkExpr_eq s object]
  | .unary _ _ operand | .sizeOf _ operand | .alignOf _ operand | .typeOf _ operand
  | .cast _ operand => by rw [walkExpr, usesExpr, walkExpr_eq s operand]
  | .binary _ _ lhs rhs | .assign _ lhs rhs => by
    rw [walkExpr, usesExpr, refsOf_append, walkExpr_eq s lhs, walkExpr_eq s rhs]
  | .ternary _ a b c | .whenExpr _ a b c => by
    rw [walkExpr, usesExpr, refsOf_append, refsOf_append, walkExpr_eq s a, walkExpr_eq s b,
      walkExpr_eq s c]
  | .call _ callee args => by
    rw [walkExpr, usesExpr, refsOf_append, walkExpr_eq s callee, walkExprs_eq s args]
  | .option _ _ es => by
    rw [walkExpr, usesExpr, walkExprs_eq s es]
    rfl
  | .structExpr _ _ es | .arrayExpr _ es => by rw [walkExpr, usesExpr, walkExprs_eq s es]
  | .compound _ kind es => by
    rw [walkExpr, usesExpr]
    split
    · exact (refsOf_asm _ s).symm
    · exact walkExprs_eq s es
  | .matchExpr _ operand arms => by
    rw [walkExpr, usesExpr, refsOf_append, walkExpr_eq s operand, walkMatchArms_eq s arms]

theorem walkExprs_eq (s : List Name) : ∀ es : List Expr,
    walkExprs P modulePath s es = refsOf P modulePath (usesExprs flatScoping s es)
  | [] => rfl
  | e :: es => by
    rw [walkExprs, usesExprs, refsOf_append, walkExpr_eq s e, walkExprs_eq s es]

theorem walkMatchArms_eq (s : List Name) : ∀ arms : List MatchArm,
    walkMatchArms P modulePath s arms = refsOf P modulePath (usesMatchArms flatScoping s arms)
  | [] => rfl
  | .variant _ capture value :: arms => by
    rw [walkMatchArms, usesMatchArms, refsOf_append, walkMatchArms_eq s arms,
      show flatScoping.capture capture s = s from rfl, walkExpr_eq s value]
  | .default value :: arms => by
    rw [walkMatchArms, usesMatchArms, refsOf_append, walkMatchArms_eq s arms, walkExpr_eq s value]
  | .literal pattern value :: arms => by
    rw [walkMatchArms, usesMatchArms, refsOf_append, refsOf_append, walkMatchArms_eq s arms,
      walkExpr_eq s pattern, walkExpr_eq s value]

end

theorem foldl_declareNamed (decls : List Decl) (s : List Name) :
    decls.foldl (fun s d => flatScoping.declareNamed d.name s) s =
      (decls.map Decl.name).reverse ++ s := by
  induction decls generalizing s with
  | nil => rfl
  | cons d decls ih =>
    rw [List.foldl_cons, ih, List.map_cons, List.reverse_cons]
    simp [flatScoping]

/-- What the walk returns for a statement with these uses. -/
def found (P : Modules M) (modulePath : M) (r : List (Use × List Name) × List Name) :
    List (Ref M) × List Name := (refsOf P modulePath r.1, r.2)

theorem leave_flat (s t : List Name) : flatScoping.leave s t = t := rfl

theorem capture_flat (c : Option Decl) (s : List Name) : flatScoping.capture c s = s := rfl

mutual

/-- **The walk finds the references of the uses in its own scopes.** -/
theorem walkStmt_eq (s : List Name) : ∀ stmt : Stmt,
    walkStmt P modulePath s stmt = found P modulePath (usesStmt flatScoping s stmt)
  | .block stmts => by rw [walkStmt, usesStmt, walkStmts_eq s stmts]; rfl
  | .ifThen c t => by
    simp only [walkStmt, usesStmt, walkStmt_eq s t, walkExpr_eq s c, found, refsOf_append,
      leave_flat]
  | .ifElse c t e => by
    simp only [walkStmt, usesStmt, walkStmt_eq _ t, walkStmt_eq _ e, walkExpr_eq s c, found,
      refsOf_append, leave_flat]
  | .whileStmt c b => by
    simp only [walkStmt, usesStmt, walkStmt_eq s b, walkExpr_eq s c, found, refsOf_append,
      leave_flat]
  | .forIn index element iterable body => by
    simp only [walkStmt, usesStmt, walkStmt_eq _ body, walkExpr_eq s iterable, found,
      refsOf_append, leave_flat]
    rfl
  | .switchStmt operand arms => by
    simp only [walkStmt, usesStmt, walkSwitchArms_eq s arms, walkExpr_eq s operand, found,
      refsOf_append]
  | .exprStmt e | .returnErr e => by rw [walkStmt, usesStmt, walkExpr_eq s e]; rfl
  | .varDecl decl (some e) => by simp only [walkStmt, usesStmt, walkExpr_eq s e]; rfl
  | .varDecl decl none => rfl
  | .varDeclGroup decls init => by
    rw [walkStmt, usesStmt, foldl_declareNamed, walkExpr_eq s init]
    rfl
  | .continueStmt | .breakStmt => rfl
  | .asmStmt names => by rw [walkStmt, usesStmt, found, refsOf_asm]
  | .returnStmt values | .returnOk values => by rw [walkStmt, usesStmt, walkExprs_eq s values]; rfl
  | .deferStmt body => by rw [walkStmt, usesStmt, walkStmt_eq s body]
  | .whenStmt _ c t e => by
    simp only [walkStmt, usesStmt, walkStmts_eq _ t, walkStmts_eq _ e, walkExpr_eq s c, found,
      refsOf_append, leave_flat]

theorem walkStmts_eq (s : List Name) : ∀ stmts : List Stmt,
    walkStmts P modulePath s stmts = found P modulePath (usesStmts flatScoping s stmts)
  | [] => rfl
  | stmt :: stmts => by
    simp only [walkStmts, usesStmts, walkStmt_eq s stmt, walkStmts_eq _ stmts, found,
      refsOf_append]

theorem walkSwitchArms_eq (s : List Name) : ∀ arms : List SwitchArm,
    walkSwitchArms P modulePath s arms = found P modulePath (usesSwitchArms flatScoping s arms)
  | [] => rfl
  | .variant _ capture body :: arms => by
    simp only [walkSwitchArms, usesSwitchArms, capture_flat, walkStmt_eq s body,
      walkSwitchArms_eq _ arms, found, refsOf_append, leave_flat]
  | .default body :: arms => by
    simp only [walkSwitchArms, usesSwitchArms, walkStmt_eq s body, walkSwitchArms_eq _ arms, found,
      refsOf_append, leave_flat]
  | .literal pattern body :: arms => by
    simp only [walkSwitchArms, usesSwitchArms, walkStmt_eq s body, walkSwitchArms_eq _ arms,
      walkExpr_eq s pattern, found, refsOf_append, leave_flat]

end

end Finds

/-! ## Two ways of keeping scopes -/

/-- A map of scopes that every operation respects. -/
structure Scoping.Hom {σ τ : Type} (S : Scoping σ) (T : Scoping τ) (f : σ → τ) : Prop where
  declare : ∀ x s, f (S.declare x s) = T.declare x (f s)
  declareNamed : ∀ x s, f (S.declareNamed x s) = T.declareNamed x (f s)
  capture : ∀ d s, f (S.capture d s) = T.capture d (f s)
  constant : ∀ s, f (S.constant s) = T.constant (f s)
  leave : ∀ s t, f (S.leave s t) = T.leave (f s) (f t)

section Maps

variable {σ τ : Type} {S : Scoping σ} {T : Scoping τ} {f : σ → τ}

theorem asm_map (xs : List Name) (s : σ) :
    (xs.map fun x => (Use.asmOperand x, f s)) =
      (xs.map fun x => (Use.asmOperand x, s)).map (Prod.map id f) := by
  rw [List.map_map]
  rfl

theorem Scoping.Hom.foldl (h : S.Hom T f) (decls : List Decl) (s : σ) :
    f (decls.foldl (fun s d => S.declareNamed d.name s) s) =
      decls.foldl (fun s d => T.declareNamed d.name s) (f s) := by
  induction decls generalizing s with
  | nil => rfl
  | cons d decls ih => rw [List.foldl_cons, List.foldl_cons, ih, h.declareNamed]

mutual

theorem usesExpr_map (h : S.Hom T f) (s : σ) : ∀ e : Expr,
    usesExpr T (f s) e = (usesExpr S s e).map (Prod.map id f)
  | .literalInteger .. | .literalString .. | .literalChar .. | .literalBool .. | .leaf ..
  | .dotIdent .. | .bitsetExpr .. | .ident .. | .importExpr _ => rfl
  | .member key object x => by
    rw [usesExpr, usesExpr]
    cases isChain object with
    | true => rfl
    | false => exact usesExpr_map h s object
  | .unary _ _ operand | .sizeOf _ operand | .alignOf _ operand | .typeOf _ operand
  | .cast _ operand => by rw [usesExpr, usesExpr, usesExpr_map h s operand]
  | .binary _ _ lhs rhs | .assign _ lhs rhs => by
    rw [usesExpr, usesExpr, List.map_append, usesExpr_map h s lhs, usesExpr_map h s rhs]
  | .ternary _ a b c | .whenExpr _ a b c => by
    rw [usesExpr, usesExpr, List.map_append, List.map_append, usesExpr_map h s a,
      usesExpr_map h s b, usesExpr_map h s c]
  | .call _ callee args => by
    rw [usesExpr, usesExpr, List.map_append, usesExpr_map h s callee, usesExprs_map h s args]
  | .option _ _ es => by
    rw [usesExpr, usesExpr, ← h.constant, usesExprs_map h (S.constant s) es]
  | .structExpr _ _ es | .arrayExpr _ es => by rw [usesExpr, usesExpr, usesExprs_map h s es]
  | .compound _ kind es => by
    rw [usesExpr, usesExpr]
    split
    · exact asm_map (asmNames es) s
    · exact usesExprs_map h s es
  | .matchExpr _ operand arms => by
    rw [usesExpr, usesExpr, List.map_append, usesExpr_map h s operand, usesMatchArms_map h s arms]

theorem usesExprs_map (h : S.Hom T f) (s : σ) : ∀ es : List Expr,
    usesExprs T (f s) es = (usesExprs S s es).map (Prod.map id f)
  | [] => rfl
  | e :: es => by
    rw [usesExprs, usesExprs, List.map_append, usesExpr_map h s e, usesExprs_map h s es]

theorem usesMatchArms_map (h : S.Hom T f) (s : σ) : ∀ arms : List MatchArm,
    usesMatchArms T (f s) arms = (usesMatchArms S s arms).map (Prod.map id f)
  | [] => rfl
  | .variant _ capture value :: arms => by
    rw [usesMatchArms, usesMatchArms, List.map_append, ← h.capture,
      usesExpr_map h (S.capture capture s) value, usesMatchArms_map h s arms]
  | .default value :: arms => by
    rw [usesMatchArms, usesMatchArms, List.map_append, usesExpr_map h s value,
      usesMatchArms_map h s arms]
  | .literal pattern value :: arms => by
    rw [usesMatchArms, usesMatchArms, List.map_append, List.map_append, usesExpr_map h s pattern,
      usesExpr_map h s value, usesMatchArms_map h s arms]

end

/-- The uses and the scope behind a statement, mapped. -/
def mapUses (f : σ → τ) (r : List (Use × σ) × σ) : List (Use × τ) × τ :=
  (r.1.map (Prod.map id f), f r.2)

mutual

theorem usesStmt_map (h : S.Hom T f) (s : σ) : ∀ stmt : Stmt,
    usesStmt T (f s) stmt = mapUses f (usesStmt S s stmt)
  | .block stmts => by simp only [usesStmt, usesStmts_map h s stmts, mapUses, h.leave]
  | .ifThen c t => by
    simp only [usesStmt, usesStmt_map h s t, usesExpr_map h s c, mapUses, h.leave, List.map_append]
  | .ifElse c t e => by
    simp only [usesStmt, usesStmt_map h s t, usesExpr_map h s c, mapUses, ← h.leave,
      usesStmt_map h _ e, List.map_append]
  | .whileStmt c b => by
    simp only [usesStmt, usesStmt_map h s b, usesExpr_map h s c, mapUses, h.leave, List.map_append]
  | .forIn index element iterable body => by
    simp only [usesStmt, ← h.declareNamed, usesStmt_map h _ body, usesExpr_map h s iterable, mapUses,
      h.leave, List.map_append]
  | .switchStmt operand arms => by
    simp only [usesStmt, usesSwitchArms_map h s arms, usesExpr_map h s operand, mapUses,
      List.map_append]
  | .exprStmt e | .returnErr e => by simp only [usesStmt, usesExpr_map h s e, mapUses]
  | .varDecl decl (some e) => by
    simp only [usesStmt, usesExpr_map h s e, mapUses, h.declare]
  | .varDecl decl none => by simp only [usesStmt, mapUses, h.declare, List.map_nil]
  | .varDeclGroup decls init => by
    simp only [usesStmt, usesExpr_map h s init, mapUses, h.foldl]
  | .continueStmt | .breakStmt => rfl
  | .asmStmt names => by rw [usesStmt, usesStmt, mapUses, asm_map]
  | .returnStmt values | .returnOk values => by
    simp only [usesStmt, usesExprs_map h s values, mapUses]
  | .deferStmt body => by simp only [usesStmt, usesStmt_map h s body]
  | .whenStmt _ c t e => by
    simp only [usesStmt, usesStmts_map h s t, usesExpr_map h s c, mapUses, ← h.leave,
      usesStmts_map h _ e, List.map_append]

theorem usesStmts_map (h : S.Hom T f) (s : σ) : ∀ stmts : List Stmt,
    usesStmts T (f s) stmts = mapUses f (usesStmts S s stmts)
  | [] => rfl
  | stmt :: stmts => by
    simp only [usesStmts, usesStmt_map h s stmt, mapUses, usesStmts_map h _ stmts, List.map_append]

theorem usesSwitchArms_map (h : S.Hom T f) (s : σ) : ∀ arms : List SwitchArm,
    usesSwitchArms T (f s) arms = mapUses f (usesSwitchArms S s arms)
  | [] => rfl
  | .variant _ capture body :: arms => by
    simp only [usesSwitchArms, ← h.capture, usesStmt_map h _ body, mapUses, ← h.leave,
      usesSwitchArms_map h _ arms, List.map_append]
  | .default body :: arms => by
    simp only [usesSwitchArms, usesStmt_map h _ body, mapUses, ← h.leave,
      usesSwitchArms_map h _ arms, List.map_append]
  | .literal pattern body :: arms => by
    simp only [usesSwitchArms, usesStmt_map h _ body, mapUses, ← h.leave, usesExpr_map h s pattern,
      usesSwitchArms_map h _ arms, List.map_append]

end

theorem Scoping.hom_fst (S : Scoping σ) (T : Scoping τ) : (S.prod T).Hom S Prod.fst :=
  ⟨fun _ _ => rfl, fun _ _ => rfl, fun _ _ => rfl, fun _ => rfl, fun _ _ => rfl⟩

theorem Scoping.hom_snd (S : Scoping σ) (T : Scoping τ) : (S.prod T).Hom T Prod.snd :=
  ⟨fun _ _ => rfl, fun _ _ => rfl, fun _ _ => rfl, fun _ => rfl, fun _ _ => rfl⟩

end Maps

/-! ## Scopes that agree -/

section Agree

variable {P : Modules M} {modulePath : M} {p q : Name → Bool}

/-- The references of a name that is no import. -/
theorem bareRef_congr {x : Name} (h : IsImport P modulePath x → p x = q x) :
    bareRef P modulePath p x = bareRef P modulePath q x := by
  by_cases hx : IsImport P modulePath x
  · rw [bareRef, bareRef, h hx]
  · have hnone : ((P modulePath).bind fun m => m.bareImportOrigins x) = none := by
      cases hm : P modulePath with
      | none => rfl
      | some m =>
        cases ho : m.bareImportOrigins x with
        | none => exact ho
        | some r => exact absurd ⟨m, hm, .inr (by rw [ho]; rfl)⟩ hx
    rw [bareRef, bareRef, hnone]
    simp

theorem resolve_congr : ∀ {e : Expr},
    (∀ x, chainName e = some x → IsImport P modulePath x → p x = q x) →
      resolveNamespaceChain P modulePath p e = resolveNamespaceChain P modulePath q e
  | .ident key x, h => by
    by_cases hx : IsImport P modulePath x
    · rw [resolveNamespaceChain, resolveNamespaceChain, h x rfl hx]
    · have hnone : ((P modulePath).bind fun m =>
          match m.symbols x with
          | some (.import path _) => some path
          | _ => none) = none := by
        cases hm : P modulePath with
        | none => rfl
        | some m =>
          rw [Option.bind_some]
          split
          · rename_i path isPub hs
            exact absurd ⟨m, hm, .inl ⟨path, isPub, hs⟩⟩ hx
          · rfl
      rw [resolveNamespaceChain, resolveNamespaceChain, hnone]
      simp
  | .member key object x, h => by
    rw [resolveNamespaceChain, resolveNamespaceChain, resolve_congr (e := object) h]
  | .importExpr .., _ | .literalInteger .., _ | .literalString .., _ | .literalChar .., _
  | .literalBool .., _ | .leaf .., _ | .dotIdent .., _ | .unary .., _ | .binary .., _
  | .ternary .., _ | .whenExpr .., _ | .assign .., _ | .call .., _ | .sizeOf .., _
  | .alignOf .., _ | .typeOf .., _ | .option .., _ | .cast .., _ | .bitsetExpr .., _
  | .structExpr .., _ | .arrayExpr .., _ | .matchExpr .., _ | .compound .., _ => rfl

theorem chainRefs_congr : ∀ {e : Expr},
    (∀ x, chainName e = some x → IsImport P modulePath x → p x = q x) →
      chainRefs P modulePath p e = chainRefs P modulePath q e
  | .ident key x, h => bareRef_congr (h x rfl)
  | .member key object x, h => by
    rw [chainRefs, chainRefs, resolve_congr (e := object) h, chainRefs_congr (e := object) h]
  | .importExpr .., _ | .literalInteger .., _ | .literalString .., _ | .literalChar .., _
  | .literalBool .., _ | .leaf .., _ | .dotIdent .., _ | .unary .., _ | .binary .., _
  | .ternary .., _ | .whenExpr .., _ | .assign .., _ | .call .., _ | .sizeOf .., _
  | .alignOf .., _ | .typeOf .., _ | .option .., _ | .cast .., _ | .bitsetExpr .., _
  | .structExpr .., _ | .arrayExpr .., _ | .matchExpr .., _ | .compound .., _ => rfl

theorem isLocal_eq_iff {s t : List Name} {x : Name} :
    isLocal s x = isLocal t x ↔ (x ∈ s ↔ x ∈ t) := by
  rw [isLocal, isLocal, Bool.eq_iff_iff, List.contains_iff_mem, List.contains_iff_mem]

/-- **Where the scopes agree, the walk finds the references of the body.** -/
theorem walkRefs_eq {body : Stmt} (h : ScopesAgree P modulePath body) :
    walkRefs P modulePath body = lexicalRefs P modulePath body := by
  have hflat := usesStmt_map (flatScoping.hom_fst lexicalScoping) ([], []) body
  have hlex := usesStmt_map (flatScoping.hom_snd lexicalScoping) ([], []) body
  simp only at hflat hlex
  rw [walkRefs, walkStmt_eq, lexicalRefs, hflat, hlex]
  simp only [found, mapUses, refsOf, List.flatMap_map]
  rw [List.flatMap_def, List.flatMap_def]
  refine congrArg List.flatten (List.map_congr_left fun u hu => ?_)
  have hu := h u hu
  obtain ⟨use, before, scope⟩ := u
  cases use with
  | chain e => exact chainRefs_congr fun x hx himp => isLocal_eq_iff.2 (hu x hx himp)
  | asmOperand x =>
    -- either a local is meant, or the name is no import
    have hshadow : bareRef P modulePath (isLocal scope) x =
        bareRef P modulePath (fun _ => true) x :=
      bareRef_congr fun himp => List.contains_iff_mem.2 (hu himp)
    exact hshadow.symm

end Agree

end Mirage.Ast
