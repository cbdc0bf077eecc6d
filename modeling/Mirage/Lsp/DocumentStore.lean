import Mathlib.Algebra.Order.Ring.Nat
import Mathlib.Data.List.AList
import Mathlib.Data.List.Sort

/-!
# The document store of the language server

The model of `DocumentStore` (`lsp/analysis.cpp`): the open buffers, the cached analysis
bundles by the directory of their root module, the index from a directory to the bundles whose
closure contains it, and the files with published diagnostics. The store belongs to one thread,
and each operation is a function on it.

The compiler pipeline is an `Analyser`: a function of the root directory, the buffers and the
files on disk. It looks up directories; those it finds and loads are the modules of the
result. What it *reads* is confined to them (`Analyser.confined`): whether a directory it
looked up exists and which files it has, and the buffers of the files of its modules. The
module resolver is one (`Mirage.Lsp.Resolver`).

A canonical path is a directory and a name, so that `parent_path` is a projection and
`canonicalize` is the identity on it. The tables of the source are hash maps: here association
lists, whose order is one of the orders a hash map may have.
-/

namespace Mirage.Lsp

/-- A file, by the canonical path of its directory and its name. -/
structure Path (Dir : Type) where
  dir : Dir
  name : String
  deriving DecidableEq

/-- The directories on disk, each with the names and the texts of its `.mir` files. -/
abbrev Files (Dir : Type) := AList fun _ : Dir => List (String × String)

/-- The texts of the open documents. -/
abbrev Buffers (Dir : Type) := AList fun _ : Path Dir => String

/-- The compiler pipeline from the loading of modules to the diagnostics. -/
@[ext]
structure Analyser (Dir Result Diagnostic : Type) [DecidableEq Dir] where
  analyse : Dir → Buffers Dir → Files Dir → Result
  /-- The keys of `ast_program.modules`. -/
  modules : Result → List Dir
  /-- The directories whose existence was asked for. -/
  lookedUp : Result → List Dir
  /-- The diagnostics by file. -/
  grouped : Result → AList fun _ : Path Dir => List Diagnostic
  confined : ∀ root buffers buffers' files files',
    (∀ d ∈ lookedUp (analyse root buffers files), files'.lookup d = files.lookup d) →
    (∀ p : Path Dir, p.dir ∈ modules (analyse root buffers files) →
      buffers'.lookup p = buffers.lookup p) →
    analyse root buffers' files' = analyse root buffers files

/-- A cached analysis, with the time of its last access. -/
structure CachedBundle (Result : Type) where
  result : Result
  lastAccess : Nat

structure DocumentStore (Dir Result : Type) [DecidableEq Dir] where
  openTexts : Buffers Dir := ∅
  moduleResults : AList fun _ : Dir => CachedBundle Result := ∅
  /-- The keys of the bundles that reach a directory. -/
  bundleOfDir : AList fun _ : Dir => List Dir := ∅
  lastPublishedNonemptyDiagFiles : List (Path Dir) := []
  /-- A 64-bit counter. -/
  accessClock : Nat := 0

def maxCachedModules : Nat := 32

/-- The next value of the access clock. -/
def tick (clock : Nat) : Nat := (clock + 1) % 2 ^ 64

namespace DocumentStore

variable {Dir Result Diagnostic : Type} [DecidableEq Dir]
variable (A : Analyser Dir Result Diagnostic)

/-- Erase the key from the entry of the directory, and the entry when it becomes empty. -/
def unindexDir (key : Dir) (index : AList fun _ : Dir => List Dir) (dir : Dir) :
    AList fun _ : Dir => List Dir :=
  match index.lookup dir with
  | none => index
  | some keys =>
    let keys := keys.filter (· ≠ key)
    if keys.isEmpty then index.erase dir else index.insert dir keys

def unindexBundle (key : Dir) (s : DocumentStore Dir Result) : DocumentStore Dir Result :=
  match s.moduleResults.lookup key with
  | none => s
  | some b => { s with bundleOfDir := (A.modules b.result).foldl (unindexDir key) s.bundleOfDir }

/-- Erase a bundle, paired with `unindexBundle`. -/
def eraseBundle (s : DocumentStore Dir Result) (key : Dir) : DocumentStore Dir Result :=
  let s := s.unindexBundle A key
  { s with moduleResults := s.moduleResults.erase key }

def invalidate (path : Path Dir) (s : DocumentStore Dir Result) : DocumentStore Dir Result :=
  match s.bundleOfDir.lookup path.dir with
  | none => s
  | some keys => keys.foldl (eraseBundle A) s

/-- The directories of the open documents. -/
def openDirs (s : DocumentStore Dir Result) : List Dir := s.openTexts.keys.map Path.dir

/-- Some open document is in the closure of the bundle. -/
def stillReferenced (s : DocumentStore Dir Result) (b : CachedBundle Result) : Bool :=
  s.openDirs.any fun dir => dir ∈ A.modules b.result

def evictIfUnreferenced (s : DocumentStore Dir Result) (key : Dir) : DocumentStore Dir Result :=
  match s.moduleResults.lookup key with
  | none => s
  | some b => if s.stillReferenced A b then s else s.eraseBundle A key

def evictUnreferencedBundles (s : DocumentStore Dir Result) : DocumentStore Dir Result :=
  s.moduleResults.keys.foldl (evictIfUnreferenced A) s

/-- The first of two entries unless the second is older. -/
def older (o e : Σ _ : Dir, CachedBundle Result) : Σ _ : Dir, CachedBundle Result :=
  if e.2.lastAccess < o.2.lastAccess then e else o

def evictLruIfOverCapacity (s : DocumentStore Dir Result) : DocumentStore Dir Result :=
  if s.moduleResults.entries.length ≤ maxCachedModules then s
  else match s.moduleResults.entries with
    | [] => s
    | e :: es => s.eraseBundle A (es.foldl older e).1

def «open» (path : Path Dir) (text : String) (s : DocumentStore Dir Result) :
    DocumentStore Dir Result :=
  { s with openTexts := s.openTexts.insert path text }.invalidate A path

def update (path : Path Dir) (text : String) (s : DocumentStore Dir Result) :
    DocumentStore Dir Result :=
  { s with openTexts := s.openTexts.insert path text }.invalidate A path

def close (path : Path Dir) (s : DocumentStore Dir Result) : DocumentStore Dir Result :=
  ({ s with openTexts := s.openTexts.erase path }.invalidate A path).evictUnreferencedBundles A

def invalidateExternal (path : Path Dir) (s : DocumentStore Dir Result) :
    DocumentStore Dir Result := s.invalidate A path

/-- Record an access to a bundle. -/
def access (key : Dir) (b : CachedBundle Result) (s : DocumentStore Dir Result) :
    DocumentStore Dir Result :=
  { s with
    moduleResults := s.moduleResults.insert key { b with lastAccess := tick s.accessClock }
    accessClock := tick s.accessClock }

variable [LE Dir] [DecidableLE Dir]

/-- Insert into a `std::set` of keys. -/
def insertKey (key : Dir) (keys : List Dir) : List Dir :=
  if key ∈ keys then keys else keys.orderedInsert (· ≤ ·) key

/-- `bundle_of_dir_[dir].insert(key)`. -/
def indexDir (key : Dir) (index : AList fun _ : Dir => List Dir) (dir : Dir) :
    AList fun _ : Dir => List Dir :=
  index.insert dir (insertKey key ((index.lookup dir).getD []))

def indexBundle (key : Dir) (s : DocumentStore Dir Result) : DocumentStore Dir Result :=
  match s.moduleResults.lookup key with
  | none => s
  | some b => { s with bundleOfDir := (A.modules b.result).foldl (indexDir key) s.bundleOfDir }

/-- Analyse a directory and cache the bundle. -/
def analyseDir (files : Files Dir) (dir : Dir) (s : DocumentStore Dir Result) :
    DocumentStore Dir Result :=
  let s := s.unindexBundle A dir
  let b := { result := A.analyse dir s.openTexts files, lastAccess := tick s.accessClock }
  let s := { s with
    moduleResults := s.moduleResults.insert dir b
    accessClock := tick s.accessClock }
  (s.indexBundle A dir).evictLruIfOverCapacity A

/-- The bundle that covers the directory of a file, by its key, and the store after it; nothing
    where `module_results_.at` throws. -/
def ensureAnalysed (files : Files Dir) (path : Path Dir) (s : DocumentStore Dir Result) :
    Option (Dir × DocumentStore Dir Result) :=
  match s.bundleOfDir.lookup path.dir with
  | some (key :: _) =>
    match s.moduleResults.lookup key with
    | some b => some (key, s.access key b)
    | none => none
  | _ => some (path.dir, s.analyseDir A files path.dir)

end DocumentStore

end Mirage.Lsp
