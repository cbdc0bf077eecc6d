import Mathlib.Data.List.Lex
import Mathlib.Data.String.Basic
import Mirage.Lsp.DocumentStore

/-!
# The module resolver

The model of `ast::resolve` (`compiler/module_resolver.cpp`) as the language server calls it:
from the root directory, the modules are loaded depth first, each import is searched in the
directory of the importing module and then under the search roots. Texts come from the open
buffers first, and from the disk where there is no buffer.

Lexing and parsing enter through the imports they find in a text (none for a text that does not
lex), and the checker through the diagnostics it gives for a program. The directories that
are looked up are recorded in the program; nothing reads that record, and it is what makes the
resolver an `Analyser` (`resolver`).
-/

namespace Mirage.Lsp

/-- The components of a canonical path. -/
abbrev DirPath := List String

instance : LawfulBEq DirPath := inferInstance

/-- An import path, by its components. -/
structure Import where
  isAbsolute : Bool := false
  components : List String
  deriving DecidableEq

/-- The directories of the environment that may be search roots, besides the root module. -/
structure Environment where
  cwd : Option DirPath := none
  compilerDir : Option DirPath := none
  compilerLibDir : Option DirPath := none
  modulesRoot : Option DirPath := none

/-- The directories of the environment. The library beside the compiler does not count twice. -/
def Environment.dirs (env : Environment) : List DirPath :=
  [env.cwd, env.compilerDir,
    if env.compilerLibDir = env.compilerDir then none else env.compilerLibDir,
    env.modulesRoot].filterMap id

/-- What is loaded and resolved. -/
structure Program where
  modules : List (DirPath × List (String × String)) := []
  moduleImports : List (DirPath × Import × Option DirPath) := []
  lookedUp : List DirPath := []

/-- The directories that are loaded. -/
def Program.loaded (program : Program) : List DirPath := program.modules.map Prod.fst

namespace Resolver

/-- Follow the components of a path from a directory; the directories that are looked up on the
    way come with the result. -/
def walk (files : Files DirPath) : DirPath → List String → Option DirPath × List DirPath
  | dir, [] => (if dir ∈ files then some dir else none, [dir])
  | dir, c :: cs =>
    if c = "." then walk files dir cs
    else if c = ".." then walk files dir.dropLast cs
    else if dir ++ [c] ∈ files then
      ((walk files (dir ++ [c]) cs).1, (dir ++ [c]) :: (walk files (dir ++ [c]) cs).2)
    else (none, [dir ++ [c]])

def isContainedIn (base candidate : DirPath) : Bool := base.isPrefixOf candidate

/-- Search the roots in order; what is found outside its root is rejected. -/
def searchRoots (files : Files DirPath) (cs : List String) :
    List DirPath → Option DirPath × List DirPath
  | [] => (none, [])
  | root :: roots =>
    let (found, looked) := walk files root cs
    match found with
    | some dir =>
      if isContainedIn root dir then (some dir, looked)
      else ((searchRoots files cs roots).1, looked ++ (searchRoots files cs roots).2)
    | none => ((searchRoots files cs roots).1, looked ++ (searchRoots files cs roots).2)

def resolveImportPath (files : Files DirPath) (importer : DirPath) (i : Import)
    (roots : List DirPath) : Option DirPath × List DirPath :=
  if i.isAbsolute then (none, [])
  else
    let (found, looked) := walk files importer i.components
    match found with
    | some dir => (some dir, looked)
    | none =>
      ((searchRoots files i.components roots).1,
        looked ++ (searchRoots files i.components roots).2)

/-- The files of a directory with their texts, from the buffers where there is one. -/
def loadAndParse (buffers : Buffers DirPath) (files : Files DirPath) (dir : DirPath) :
    List (String × String) :=
  ((files.lookup dir).getD []).map fun (name, text) =>
    (name, (buffers.lookup ⟨dir, name⟩).getD text)

/-- The imports of the files of a module, with the directory of the module. -/
def findImports (importsOf : String → List Import) (dir : DirPath)
    (module : List (String × String)) : List (DirPath × Import) :=
  module.flatMap fun (_, text) => (importsOf text).map (dir, ·)

variable (importsOf : String → List Import) (buffers : Buffers DirPath) (files : Files DirPath)
  (roots : List DirPath)

/-- Record the resolution of an import. -/
def record (program : Program) (importer : DirPath) (i : Import)
    (found : Option DirPath × List DirPath) : Program :=
  { program with
    moduleImports := program.moduleImports ++ [(importer, i, found.1)]
    lookedUp := program.lookedUp ++ found.2 }

/-- Load a module. -/
def load (program : Program) (dir : DirPath) : Program :=
  { program with modules := program.modules ++ [(dir, loadAndParse buffers files dir)] }

/-- The directories on disk that are not loaded. -/
def unloaded (program : Program) : List DirPath :=
  files.keys.filter fun dir => !program.loaded.contains dir

section

variable {files}

theorem walk_mem {cs : List String} {dir d : DirPath} (h : (walk files dir cs).1 = some d) :
    d ∈ files := by
  induction cs generalizing dir with
  | nil =>
    rw [walk] at h
    split at h
    · cases h
      assumption
    · cases h
  | cons c cs ih =>
    rw [walk] at h
    split_ifs at h
    · exact ih h
    · exact ih h
    · exact ih h

theorem searchRoots_mem {cs : List String} {roots : List DirPath} {d : DirPath}
    (h : (searchRoots files cs roots).1 = some d) : d ∈ files := by
  induction roots with
  | nil => cases h
  | cons root roots ih =>
    rw [searchRoots] at h
    cases hwalk : (walk files root cs).1 with
    | none =>
      simp only [hwalk] at h
      exact ih h
    | some dir =>
      simp only [hwalk] at h
      split at h
      · cases h
        exact walk_mem hwalk
      · exact ih h

theorem resolveImportPath_mem {importer d : DirPath} {i : Import} {roots : List DirPath}
    (h : (resolveImportPath files importer i roots).1 = some d) : d ∈ files := by
  rw [resolveImportPath] at h
  split at h
  · cases h
  · cases hwalk : (walk files importer i.components).1 with
    | none =>
      simp only [hwalk] at h
      exact searchRoots_mem h
    | some dir =>
      simp only [hwalk] at h
      cases h
      exact walk_mem hwalk

theorem unloaded_load {program : Program} {dir : DirPath} {buffers : Buffers DirPath}
    (hdir : dir ∈ files) (hnew : dir ∉ program.loaded) :
    (unloaded files (load buffers files program dir)).length < (unloaded files program).length := by
  have hsub : (unloaded files (load buffers files program dir)) =
      (unloaded files program).filter (· ≠ dir) := by
    rw [unloaded, unloaded, List.filter_filter]
    refine List.filter_congr fun d _ => ?_
    rw [Bool.eq_iff_iff]
    simp [load, Program.loaded, and_comm]
  have hmem : dir ∈ unloaded files program :=
    List.mem_filter.2 ⟨AList.mem_keys.1 hdir, by simpa using hnew⟩
  rw [hsub]
  exact List.length_filter_lt_length_iff_exists.2 ⟨dir, hmem, by simp⟩

end

/-- Resolve imports and load the modules they lead to, depth first: the imports of a module come
    before those that were pending. -/
def visit (program : Program) : List (DirPath × Import) → Program
  | [] => program
  | (importer, i) :: rest =>
    match _ : (resolveImportPath files importer i roots).1 with
    | none => visit (record program importer i (resolveImportPath files importer i roots)) rest
    | some dir =>
      if _ : dir ∈ program.loaded then
        visit (record program importer i (resolveImportPath files importer i roots)) rest
      else
        visit (load buffers files
            (record program importer i (resolveImportPath files importer i roots)) dir)
          (findImports importsOf dir (loadAndParse buffers files dir) ++ rest)
termination_by imports => ((unloaded files program).length, imports.length)
decreasing_by
  · exact Prod.Lex.right _ (Nat.lt_succ_self _)
  · exact Prod.Lex.right _ (Nat.lt_succ_self _)
  · exact Prod.Lex.left _ _ (unloaded_load (resolveImportPath_mem ‹_›) ‹_›)

/-- The search roots: the root module and the directories of the environment that exist. -/
def usableRoots (env : Environment) (root : DirPath) : List DirPath :=
  root :: env.dirs.filter (· ∈ files)

def resolve (env : Environment) (root : DirPath) : Program :=
  if root ∈ files then
    visit importsOf buffers files (usableRoots files env root)
      (load buffers files { lookedUp := root :: env.dirs } root)
      (findImports importsOf root (loadAndParse buffers files root))
  else { lookedUp := [root] }

/-! ## What the resolver reads -/

section

variable {importsOf buffers files roots} {buffers' : Buffers DirPath} {files' : Files DirPath}

/-- Two disks agree on a directory. -/
def Agree (files files' : Files DirPath) (d : DirPath) : Prop := files'.lookup d = files.lookup d

theorem Agree.mem_iff {d : DirPath} (h : Agree files files' d) : d ∈ files' ↔ d ∈ files := by
  rw [← AList.lookup_isSome, ← AList.lookup_isSome, h]

theorem walk_looked {cs : List String} {dir d : DirPath} (h : (walk files dir cs).1 = some d) :
    d ∈ (walk files dir cs).2 := by
  induction cs generalizing dir with
  | nil =>
    rw [walk] at h ⊢
    dsimp only at h
    split at h
    · cases h
      exact List.mem_singleton_self _
    · cases h
  | cons c cs ih =>
    rw [walk] at h ⊢
    split_ifs at h ⊢
    · exact ih h
    · exact ih h
    · exact List.mem_cons_of_mem _ (ih h)

theorem searchRoots_looked {cs : List String} {roots : List DirPath} {d : DirPath}
    (h : (searchRoots files cs roots).1 = some d) : d ∈ (searchRoots files cs roots).2 := by
  induction roots with
  | nil => cases h
  | cons root roots ih =>
    rw [searchRoots] at h ⊢
    cases hwalk : (walk files root cs).1 with
    | none =>
      simp only [hwalk] at h ⊢
      exact List.mem_append_right _ (ih h)
    | some dir =>
      simp only [hwalk] at h ⊢
      split_ifs at h ⊢
      · cases h
        exact walk_looked hwalk
      · exact List.mem_append_right _ (ih h)

theorem resolveImportPath_looked {importer d : DirPath} {i : Import} {roots : List DirPath}
    (h : (resolveImportPath files importer i roots).1 = some d) :
    d ∈ (resolveImportPath files importer i roots).2 := by
  rw [resolveImportPath] at h ⊢
  split_ifs at h ⊢
  cases hwalk : (walk files importer i.components).1 with
  | none =>
    simp only [hwalk] at h ⊢
    exact List.mem_append_right _ (searchRoots_looked h)
  | some dir =>
    simp only [hwalk] at h ⊢
    cases h
    exact walk_looked hwalk

theorem walk_congr {cs : List String} {dir : DirPath}
    (h : ∀ d ∈ (walk files dir cs).2, Agree files files' d) :
    walk files' dir cs = walk files dir cs := by
  induction cs generalizing dir with
  | nil =>
    have hdir := h dir (List.mem_singleton_self _)
    simp only [walk, hdir.mem_iff]
  | cons c cs ih =>
    rw [walk] at h
    rw [walk, walk]
    split_ifs at h with hdot hdots hdir
    · rw [if_pos hdot, if_pos hdot, ih h]
    · rw [if_neg hdot, if_neg hdot, if_pos hdots, if_pos hdots, ih h]
    · have hmem := (h _ List.mem_cons_self).mem_iff.2 hdir
      rw [if_neg hdot, if_neg hdot, if_neg hdots, if_neg hdots, if_pos hdir, if_pos hmem,
        ih fun d hd => h d (List.mem_cons_of_mem _ hd)]
    · have hmem := mt (h _ (List.mem_singleton_self _)).mem_iff.1 hdir
      rw [if_neg hdot, if_neg hdot, if_neg hdots, if_neg hdots, if_neg hdir, if_neg hmem]

theorem searchRoots_congr {cs : List String} {roots : List DirPath}
    (h : ∀ d ∈ (searchRoots files cs roots).2, Agree files files' d) :
    searchRoots files' cs roots = searchRoots files cs roots := by
  induction roots with
  | nil => rfl
  | cons root roots ih =>
    have hlooked : (walk files root cs).2 ⊆ (searchRoots files cs (root :: roots)).2 := by
      rw [searchRoots]
      dsimp only
      split
      · split
        · exact fun _ => id
        · exact List.subset_append_left _ _
      · exact List.subset_append_left _ _
    have hwalk := walk_congr fun d hd => h d (hlooked hd)
    rw [searchRoots] at h
    rw [searchRoots, searchRoots, hwalk]
    dsimp only at h ⊢
    split at h
    · split at h
      · rw [if_pos ‹_›, if_pos ‹_›]
      · rw [if_neg ‹_›, if_neg ‹_›, ih fun d hd => h d (List.mem_append_right _ hd)]
    · rw [ih fun d hd => h d (List.mem_append_right _ hd)]

theorem resolveImportPath_congr {importer : DirPath} {i : Import} {roots : List DirPath}
    (h : ∀ d ∈ (resolveImportPath files importer i roots).2, Agree files files' d) :
    resolveImportPath files' importer i roots = resolveImportPath files importer i roots := by
  rw [resolveImportPath] at h
  rw [resolveImportPath, resolveImportPath]
  split at h
  · rw [if_pos ‹_›, if_pos ‹_›]
  · rw [if_neg ‹_›, if_neg ‹_›]
    dsimp only at h ⊢
    split at h
    · rename_i hfound
      rw [walk_congr h, hfound]
    · rename_i hfound
      rw [walk_congr fun d hd => h d (List.mem_append_left _ hd), hfound,
        searchRoots_congr fun d hd => h d (List.mem_append_right _ hd)]

theorem loadAndParse_congr {dir : DirPath} (hfiles : Agree files files' dir)
    (hbuffers : ∀ name, buffers'.lookup ⟨dir, name⟩ = buffers.lookup ⟨dir, name⟩) :
    loadAndParse buffers' files' dir = loadAndParse buffers files dir := by
  rw [loadAndParse, loadAndParse, hfiles]
  refine List.map_congr_left fun x _ => ?_
  obtain ⟨name, text⟩ := x
  simp only [hbuffers]

end

/-- What is recorded stays recorded. -/
theorem visit_mono (program : Program) (imports : List (DirPath × Import)) :
    program.lookedUp ⊆ (visit importsOf buffers files roots program imports).lookedUp ∧
      program.loaded ⊆ (visit importsOf buffers files roots program imports).loaded := by
  fun_induction visit importsOf buffers files roots program imports with
  | case1 => exact ⟨fun _ => id, fun _ => id⟩
  | case2 program importer i rest _ ih =>
    exact ⟨List.Subset.trans (List.subset_append_left _ _) ih.1, ih.2⟩
  | case3 program importer i rest dir _ _ ih =>
    exact ⟨List.Subset.trans (List.subset_append_left _ _) ih.1, ih.2⟩
  | case4 program importer i rest dir _ _ ih =>
    refine ⟨List.Subset.trans (List.subset_append_left _ _) ih.1, fun d hd => ih.2 ?_⟩
    simp only [Program.loaded, load, record, List.map_append, List.mem_append]
    exact .inl hd

section

variable {importsOf buffers files roots} {buffers' : Buffers DirPath} {files' : Files DirPath}

/-- What an import looks up is in the record afterwards. -/
theorem resolved_congr {program : Program} {importer : DirPath} {i : Import} {lookedUp : List DirPath}
    (hsub : (record program importer i (resolveImportPath files importer i roots)).lookedUp ⊆
      lookedUp)
    (hfiles : ∀ d ∈ lookedUp, Agree files files' d) :
    resolveImportPath files' importer i roots = resolveImportPath files importer i roots :=
  resolveImportPath_congr fun d hd => hfiles d (hsub (List.mem_append_right _ hd))

/-- A visit depends on the disk through what it looks up, and on the buffers through the modules
    it loads. -/
theorem visit_congr (program : Program) (imports : List (DirPath × Import))
    (hfiles : ∀ d ∈ (visit importsOf buffers files roots program imports).lookedUp,
      Agree files files' d)
    (hbuffers : ∀ p : Path DirPath,
      p.dir ∈ (visit importsOf buffers files roots program imports).loaded →
        buffers'.lookup p = buffers.lookup p) :
    visit importsOf buffers' files' roots program imports =
      visit importsOf buffers files roots program imports := by
  fun_induction visit importsOf buffers files roots program imports with
  | case1 => rw [visit]
  | case2 program importer i rest hfound ih =>
    have hresolve := resolved_congr (visit_mono importsOf buffers files roots _ rest).1 hfiles
    rw [visit]
    split
    · rw [hresolve, ih hfiles hbuffers]
    · rename_i h
      rw [hresolve, hfound] at h
      cases h
  | case3 program importer i rest dir hfound hdir ih =>
    have hresolve := resolved_congr (visit_mono importsOf buffers files roots _ rest).1 hfiles
    rw [visit]
    split
    · rw [hresolve, ih hfiles hbuffers]
    · rename_i h
      rw [hresolve, hfound] at h
      cases h
      rw [dif_pos hdir, hresolve, ih hfiles hbuffers]
  | case4 program importer i rest dir hfound hdir ih =>
    obtain ⟨hlooked, hloaded⟩ := visit_mono importsOf buffers files roots
      (load buffers files
        (record program importer i (resolveImportPath files importer i roots)) dir)
      (findImports importsOf dir (loadAndParse buffers files dir) ++ rest)
    have hresolve := resolved_congr (i := i) hlooked hfiles
    -- the module that is loaded is one of the directories looked up
    have hload : loadAndParse buffers' files' dir = loadAndParse buffers files dir := by
      refine loadAndParse_congr ?_ fun name => hbuffers ⟨dir, name⟩ (hloaded ?_)
      · exact hfiles dir (hlooked (List.mem_append_right _ (resolveImportPath_looked hfound)))
      · simp [Program.loaded, load]
    rw [visit]
    split
    · rename_i h
      rw [hresolve, hfound] at h
      cases h
    · rename_i h
      rw [hresolve, hfound] at h
      cases h
      rw [dif_neg hdir, hresolve, hload, load, hload]
      exact ih hfiles hbuffers

theorem usableRoots_congr {env : Environment} {root : DirPath}
    (h : ∀ d ∈ env.dirs, Agree files files' d) :
    usableRoots files' env root = usableRoots files env root := by
  rw [usableRoots, usableRoots]
  congr 1
  exact List.filter_congr fun d hd => decide_eq_decide.2 (h d hd).mem_iff

theorem resolve_congr {env : Environment} {root : DirPath}
    (hfiles : ∀ d ∈ (resolve importsOf buffers files env root).lookedUp, Agree files files' d)
    (hbuffers : ∀ p : Path DirPath, p.dir ∈ (resolve importsOf buffers files env root).loaded →
      buffers'.lookup p = buffers.lookup p) :
    resolve importsOf buffers' files' env root = resolve importsOf buffers files env root := by
  rw [resolve] at hfiles hbuffers
  rw [resolve, resolve]
  split at hfiles
  · rename_i hroot
    rw [if_pos hroot] at hbuffers
    obtain ⟨hlooked, hloaded⟩ := visit_mono importsOf buffers files (usableRoots files env root)
      (load buffers files { lookedUp := root :: env.dirs } root)
      (findImports importsOf root (loadAndParse buffers files root))
    have hagree := hfiles root (hlooked List.mem_cons_self)
    have hload : loadAndParse buffers' files' root = loadAndParse buffers files root :=
      loadAndParse_congr hagree fun name =>
        hbuffers ⟨root, name⟩ (hloaded (List.mem_singleton_self _))
    have hroots : usableRoots files' env root = usableRoots files env root :=
      usableRoots_congr fun d hd => hfiles d (hlooked (List.mem_cons_of_mem _ hd))
    rw [if_pos hroot, if_pos (hagree.mem_iff.2 hroot), hroots, load, hload]
    exact visit_congr _ _ hfiles hbuffers
  · rename_i hroot
    have hagree := hfiles root (List.mem_singleton_self _)
    rw [if_neg hroot, if_neg (mt hagree.mem_iff.1 hroot)]

end

end Resolver

/-- The resolver, with the checker that gives the diagnostics of a program. -/
def resolver {Diagnostic : Type} (importsOf : String → List Import) (env : Environment)
    (check : Program → AList fun _ : Path DirPath => List Diagnostic) :
    Analyser DirPath Program Diagnostic where
  analyse root buffers files := Resolver.resolve importsOf buffers files env root
  modules := Program.loaded
  lookedUp := Program.lookedUp
  grouped := check
  confined _ _ _ _ _ := Resolver.resolve_congr

end Mirage.Lsp
