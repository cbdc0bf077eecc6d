import Mirage.Lsp.CacheCoherence

/-!
# Published diagnostics

The worker of the language server (`lsp/server.cpp`) runs the tasks of the document
notifications and publishes diagnostics: at once for a document that is opened, and after a delay
for one that is changed. What the client shows for a file is the last list it was sent. The
store remembers the files whose last published list is not empty, and a round sends an
empty list for those of them that lie in the closure of its bundle and have no diagnostic any
more.

The memory is exact as long as only rounds publish. The notification that closes a document
publishes too, past the memory, and then prunes it: `Worker.Allowed` is the condition under
which neither loses a file.

* `round_clears`: in all runs under the condition, every round sends an empty list for the files
  it should clear;
* `closed_file_stays_marked`: without it, an error on disk is shown when a buffer is closed and
  never cleared.

The positions in the diagnostics and the encoding of the URIs are left out. The order of a hash
map that is iterated is part of the action.
-/

namespace Mirage.Lsp

namespace DocumentStore

variable {Dir Result Diagnostic : Type} [DecidableEq Dir]

/-- A tracked file whose directory is in the closure and that has no diagnostics now. -/
def becameClean (closureDirs : List Dir) (current : List (Path Dir)) (file : Path Dir) : Bool :=
  file.dir ∈ closureDirs ∧ file ∉ current

/-- The tracked files that have become clean, and the store that tracks the current ones. -/
def filesThatBecameClean (closureDirs : List Dir) (current : List (Path Dir))
    (s : DocumentStore Dir Result) : List (Path Dir) × DocumentStore Dir Result :=
  let tracked := s.lastPublishedNonemptyDiagFiles
  (tracked.filter (becameClean closureDirs current),
    { s with lastPublishedNonemptyDiagFiles :=
        (tracked.filter (!becameClean closureDirs current ·)) ∪ current })

/-- The directory is in the closure of a cached bundle or has an open document. -/
def reached (s : DocumentStore Dir Result) (dir : Dir) : Bool :=
  dir ∈ s.bundleOfDir ∨ dir ∈ s.openDirs

def pruneStaleDiagTracking (s : DocumentStore Dir Result) : DocumentStore Dir Result :=
  { s with lastPublishedNonemptyDiagFiles :=
      s.lastPublishedNonemptyDiagFiles.filter fun file => s.reached file.dir }

end DocumentStore

/-- A `publishDiagnostics` notification. -/
abbrev Published (Dir Diagnostic : Type) := Path Dir × List Diagnostic

/-- A round: what was sent before it, the closure of its bundle, the diagnostics found, and what
    it sends. -/
structure Round (Dir Diagnostic : Type) [DecidableEq Dir] where
  before : List (Published Dir Diagnostic)
  closureDirs : List Dir
  found : AList fun _ : Path Dir => List Diagnostic
  sends : List (Published Dir Diagnostic)

structure Worker (Dir Result Diagnostic : Type) [DecidableEq Dir] where
  documents : DocumentStore Dir Result := {}
  files : Files Dir
  pendingDiagDeadlines : AList fun _ : Path Dir => Nat := ∅
  /-- All notifications that were sent, the last one first. -/
  sent : List (Published Dir Diagnostic) := []
  /-- All rounds. -/
  rounds : List (Round Dir Diagnostic) := []

/-- A task of the worker, a sweep of the pending deadlines, or a change on disk. -/
inductive Task (Dir : Type)
  | didOpen (path : Path Dir) (text : String)
  | didChange (path : Path Dir) (text : String) (now : Nat)
  | didChangeWatchedFiles (changed : List (Path Dir)) (now : Nat)
  | didClose (path : Path Dir) (openPaths : List (Path Dir))
  /-- A request that looks at the analysis of a document. -/
  | request (path : Path Dir)
  | sweep (paths : List (Path Dir)) (now : Nat)
  | disk (files : Files Dir)

def diagnosticsDebounce : Nat := 200

namespace Worker

variable {Dir Result Diagnostic : Type} [DecidableEq Dir] (A : Analyser Dir Result Diagnostic)

/-- Put a file into the grouped diagnostics if it is not there. -/
def touch (grouped : AList fun _ : Path Dir => List Diagnostic) (file : Path Dir) :
    AList fun _ : Path Dir => List Diagnostic :=
  if file ∈ grouped then grouped else grouped.insert file []

/-- The files with diagnostics. -/
def nonemptyFiles (grouped : AList fun _ : Path Dir => List Diagnostic) : List (Path Dir) :=
  (grouped.entries.filter fun e => !e.2.isEmpty).map Sigma.fst

/-- Publish what the analysis of a file has found. -/
def publish (path : Path Dir) (result : Result) (w : Worker Dir Result Diagnostic) :
    Worker Dir Result Diagnostic :=
  let grouped := touch (A.grouped result) path
  let (stale, documents) :=
    w.documents.filesThatBecameClean (A.modules result) (nonemptyFiles grouped)
  let sends := (stale.foldl touch grouped).entries.map fun e => (e.1, e.2)
  { w with
    documents
    sent := sends ++ w.sent
    rounds := ⟨w.sent, A.modules result, A.grouped result, sends⟩ :: w.rounds }

variable [LE Dir] [DecidableLE Dir]

/-- The result of the bundle that covers a file, and the store after it; nothing where the lookup
    throws. -/
def ensure (files : Files Dir) (path : Path Dir) (s : DocumentStore Dir Result) :
    Option (Result × DocumentStore Dir Result) := do
  let (key, s) ← s.ensureAnalysed A files path
  let bundle ← s.moduleResults.lookup key
  pure (bundle.result, s)

/-- Publish diagnostics for the module of a file. An exception leaves the worker as it is. -/
def doPublishDiagnostics (w : Worker Dir Result Diagnostic) (path : Path Dir) :
    Worker Dir Result Diagnostic :=
  match ensure A w.files path w.documents with
  | none => w
  | some (result, documents) => { w with documents }.publish A path result

/-- The diagnostics for a file as seen from the first open document that has some. -/
def closureDiagnosticsFor (files : Files Dir) (path : Path Dir) :
    List (Path Dir) → DocumentStore Dir Result →
      Option (List Diagnostic × DocumentStore Dir Result)
  | [], s => some ([], s)
  | openPath :: openPaths, s => do
    let (result, s) ← ensure A files openPath s
    match (A.grouped result).lookup path with
    | some (d :: ds) => pure (d :: ds, s)
    | _ => closureDiagnosticsFor files path openPaths s

def scheduleDiagnostics (now : Nat) (deadlines : AList fun _ : Path Dir => Nat)
    (path : Path Dir) : AList fun _ : Path Dir => Nat :=
  deadlines.insert path (now + diagnosticsDebounce)

/-- One path of a sweep. -/
def sweepPath (now : Nat) (w : Worker Dir Result Diagnostic) (path : Path Dir) :
    Worker Dir Result Diagnostic :=
  match w.pendingDiagDeadlines.lookup path with
  | some deadline =>
    if deadline ≤ now then
      doPublishDiagnostics A
        { w with pendingDiagDeadlines := w.pendingDiagDeadlines.erase path } path
    else w
  | none => w

/-- Close a document: what the remaining documents say about it is published. -/
def didClose (path : Path Dir) (openPaths : List (Path Dir)) (w : Worker Dir Result Diagnostic) :
    Worker Dir Result Diagnostic :=
  let documents := w.documents.close A path
  match closureDiagnosticsFor A w.files path openPaths documents with
  | none => { w with documents }
  | some (diagnostics, documents) => { w with
      documents := documents.pruneStaleDiagTracking
      sent := (path, diagnostics) :: w.sent }

/-- Take a step. Where the source iterates over the keys of a map, the order is one of the keys. -/
def step (w : Worker Dir Result Diagnostic) :
    Task Dir → Option (Worker Dir Result Diagnostic)
  | .didOpen path text =>
    some (doPublishDiagnostics A { w with
      documents := w.documents.open A path text
      pendingDiagDeadlines := w.pendingDiagDeadlines.erase path } path)
  | .didChange path text now => some { w with
      documents := w.documents.update A path text
      pendingDiagDeadlines := scheduleDiagnostics now w.pendingDiagDeadlines path }
  | .didChangeWatchedFiles changed now => some { w with
      documents := changed.foldl (fun s path => s.invalidateExternal A path) w.documents
      pendingDiagDeadlines :=
        w.documents.openTexts.keys.foldl (scheduleDiagnostics now) w.pendingDiagDeadlines }
  | .didClose path openPaths =>
    if openPaths.isPerm (w.documents.openTexts.erase path).keys then
      some (w.didClose A path openPaths)
    else none
  | .request path => some (match ensure A w.files path w.documents with
      | none => w
      | some (_, documents) => { w with documents })
  | .sweep paths now =>
    if paths.isPerm w.pendingDiagDeadlines.keys then some (paths.foldl (sweepPath A now) w)
    else none
  | .disk files => some { w with files }

end Worker

/-! ## What the client shows -/

namespace Worker

variable {Dir Result Diagnostic : Type} [DecidableEq Dir]

/-- The last list that was sent for a file. -/
def shows (sent : List (Published Dir Diagnostic)) (file : Path Dir) : List Diagnostic :=
  ((sent.find? fun m => m.1 = file).map Prod.snd).getD []

/-- Every file that shows diagnostics is tracked. -/
def Tracked (w : Worker Dir Result Diagnostic) : Prop :=
  ∀ file, shows w.sent file ≠ [] → file ∈ w.documents.lastPublishedNonemptyDiagFiles

end Worker

/-- The round sends an empty list for every file that shows diagnostics, lies in the closure
    and has no diagnostic. -/
def Round.Clears {Dir Diagnostic : Type} [DecidableEq Dir] (r : Round Dir Diagnostic) : Prop :=
  ∀ file, Worker.shows r.before file ≠ [] → file.dir ∈ r.closureDirs →
    (r.found.lookup file).getD [] = [] → (file, []) ∈ r.sends

namespace Worker

variable {Dir Result Diagnostic : Type} [DecidableEq Dir] {A : Analyser Dir Result Diagnostic}

section Publish

variable {file path : Path Dir} {grouped : AList fun _ : Path Dir => List Diagnostic}
  {w w' : Worker Dir Result Diagnostic}

theorem lookup_touch : (touch grouped path).lookup file =
    if file = path then some ((grouped.lookup file).getD []) else grouped.lookup file := by
  rw [touch]
  split
  · rename_i hmem
    split
    · rename_i h
      subst h
      obtain ⟨ds, hds⟩ := Option.isSome_iff_exists.1 (AList.lookup_isSome.2 hmem)
      rw [hds]
      rfl
    · rfl
  · rename_i hmem
    split
    · rename_i h
      subst h
      rw [AList.lookup_insert, AList.lookup_eq_none.2 hmem]
      rfl
    · rename_i h
      rw [AList.lookup_insert_ne h]

theorem getD_lookup_touch :
    ((touch grouped path).lookup file).getD [] = (grouped.lookup file).getD [] := by
  rw [lookup_touch]
  split <;> rfl

theorem lookup_foldl_touch {files : List (Path Dir)} : (files.foldl touch grouped).lookup file =
    if file ∈ files then some ((grouped.lookup file).getD []) else grouped.lookup file := by
  induction files generalizing grouped with
  | nil => rfl
  | cons path files ih =>
    rw [List.foldl_cons, ih, getD_lookup_touch, lookup_touch]
    by_cases h : file = path
    · simp [h]
    · simp [h]

theorem mem_nonemptyFiles :
    file ∈ nonemptyFiles grouped ↔ (grouped.lookup file).getD [] ≠ [] := by
  rw [nonemptyFiles, List.mem_map]
  constructor
  · rintro ⟨⟨f, ds⟩, he, rfl⟩
    obtain ⟨he, hne⟩ := List.mem_filter.1 he
    rw [AList.mem_lookup_iff.2 he]
    simpa using hne
  · intro h
    obtain ⟨ds, hds⟩ : ∃ ds, grouped.lookup file = some ds := by
      cases hlookup : grouped.lookup file with
      | none =>
        rw [hlookup] at h
        exact absurd rfl h
      | some ds => exact ⟨ds, rfl⟩
    rw [hds] at h
    exact ⟨⟨file, ds⟩, List.mem_filter.2 ⟨AList.mem_lookup_iff.1 hds, by simpa using h⟩, rfl⟩

theorem find?_entries (entries : List (Σ _ : Path Dir, List Diagnostic)) (file : Path Dir) :
    ((entries.map fun e => (e.1, e.2)).find? fun m => m.1 = file).map Prod.snd =
      entries.dlookup file := by
  induction entries with
  | nil => rfl
  | cons e entries ih =>
    obtain ⟨f, ds⟩ := e
    rw [List.map_cons, List.find?_cons]
    by_cases h : f = file
    · subst h
      simp
    · rw [List.dlookup_cons_ne entries ⟨f, ds⟩ (Ne.symm h)]
      simp only [h, decide_false]
      exact ih

/-- After a round, a file shows what the round has sent for it, or what it did before. -/
theorem shows_append (grouped : AList fun _ : Path Dir => List Diagnostic)
    (sent : List (Published Dir Diagnostic)) (file : Path Dir) :
    shows ((grouped.entries.map fun e => (e.1, e.2)) ++ sent) file =
      (grouped.lookup file).getD (shows sent file) := by
  have hfind := find?_entries grouped.entries file
  rw [shows, List.find?_append]
  rw [AList.lookup]
  cases h : (grouped.entries.map fun e => (e.1, e.2)).find? fun m => m.1 = file with
  | none =>
    rw [h] at hfind
    rw [← hfind]
    rfl
  | some m =>
    rw [h] at hfind
    rw [← hfind]
    rfl

/-- A round keeps track of what is shown, and clears what it should. -/
theorem Tracked.publish (h : w.Tracked) (path : Path Dir) (result : Result) :
    (w.publish A path result).Tracked ∧
      ∀ r ∈ (w.publish A path result).rounds, r.Clears ∨ r ∈ w.rounds := by
  set current := nonemptyFiles (touch (A.grouped result) path) with hcurrent
  set clean := DocumentStore.becameClean (A.modules result) current with hclean
  have hmem : ∀ file, file ∈ current ↔ ((A.grouped result).lookup file).getD [] ≠ [] := by
    intro file
    rw [hcurrent, mem_nonemptyFiles, getD_lookup_touch]
  constructor
  · intro file hshows
    change file ∈ (w.documents.lastPublishedNonemptyDiagFiles.filter (!clean ·)) ∪ current
    change shows (List.map _ (AList.entries (List.foldl touch _
      (w.documents.lastPublishedNonemptyDiagFiles.filter clean))) ++ w.sent) file ≠ [] at hshows
    rw [shows_append, lookup_foldl_touch, getD_lookup_touch, lookup_touch] at hshows
    rw [List.mem_union_iff, hmem]
    by_cases hfound : ((A.grouped result).lookup file).getD [] = []
    · -- nothing is sent for it, so it is tracked and does not become clean
      refine .inl ?_
      rw [hfound] at hshows
      split_ifs at hshows with hstale hpath
      · exact absurd rfl hshows
      · exact absurd rfl hshows
      · cases hlookup : (A.grouped result).lookup file with
        | some ds =>
          rw [hlookup] at hfound hshows
          exact absurd hfound hshows
        | none =>
          rw [hlookup] at hshows
          have htracked := h file hshows
          refine List.mem_filter.2 ⟨htracked, ?_⟩
          by_contra hclean
          exact hstale (List.mem_filter.2 ⟨htracked, by simpa using hclean⟩)
    · exact .inr hfound
  · intro r hr
    refine (List.mem_cons.1 hr).imp_left ?_
    rintro rfl file hshows hdir hfound
    have hstale : file ∈ w.documents.lastPublishedNonemptyDiagFiles.filter clean := by
      refine List.mem_filter.2 ⟨h file hshows, ?_⟩
      rw [hclean, DocumentStore.becameClean]
      exact decide_eq_true ⟨hdir, fun hmem' => (hmem file).1 hmem' hfound⟩
    refine List.mem_map.2 ⟨⟨file, []⟩, AList.mem_lookup_iff.1 ?_, rfl⟩
    change AList.lookup file (List.foldl touch _
      (w.documents.lastPublishedNonemptyDiagFiles.filter clean)) = _
    rw [lookup_foldl_touch, if_pos hstale, getD_lookup_touch, hfound]

end Publish

/-! ## Runs -/

/-- What holds in all states. -/
structure Inv (w : Worker Dir Result Diagnostic) : Prop where
  tracked : w.Tracked
  clears : ∀ r ∈ w.rounds, r.Clears

section

variable {w : Worker Dir Result Diagnostic} {path : Path Dir} {s : DocumentStore Dir Result}

theorem published_close : (s.close A path).lastPublishedNonemptyDiagFiles =
    s.lastPublishedNonemptyDiagFiles := by
  rw [DocumentStore.close, (DocumentStore.evicts_evictUnreferencedBundles _).published,
    (DocumentStore.evicts_invalidate _ _).published]

theorem published_invalidateAll (changed : List (Path Dir)) (s : DocumentStore Dir Result) :
    (changed.foldl (fun s path => s.invalidateExternal A path) s).lastPublishedNonemptyDiagFiles =
      s.lastPublishedNonemptyDiagFiles := by
  induction changed generalizing s with
  | nil => rfl
  | cons path changed ih =>
    exact (ih _).trans (DocumentStore.evicts_invalidate path s).published

/-- The store may change in other ways than in what it tracks. -/
theorem Inv.setDocuments (h : w.Inv)
    (hs : s.lastPublishedNonemptyDiagFiles = w.documents.lastPublishedNonemptyDiagFiles) :
    { w with documents := s }.Inv := by
  refine ⟨fun file hshows => ?_, h.clears⟩
  change file ∈ s.lastPublishedNonemptyDiagFiles
  rw [hs]
  exact h.tracked file hshows

theorem Inv.setDeadlines (h : w.Inv) (deadlines : AList fun _ : Path Dir => Nat) :
    { w with pendingDiagDeadlines := deadlines }.Inv := ⟨h.tracked, h.clears⟩

end

variable [LE Dir] [DecidableLE Dir]

/-- A document is closed when the file is tracked or no remaining document finds diagnostics in
    it, and the tracked files that still show diagnostics afterwards are reached from the bundles
    and the documents that are left. -/
def Allowed (A : Analyser Dir Result Diagnostic) (w : Worker Dir Result Diagnostic) :
    Task Dir → Prop
  | .didClose path openPaths =>
    ∀ diagnostics documents,
      closureDiagnosticsFor A w.files path openPaths (w.documents.close A path) =
        some (diagnostics, documents) →
      (diagnostics ≠ [] → path ∈ w.documents.lastPublishedNonemptyDiagFiles) ∧
      ∀ file ∈ w.documents.lastPublishedNonemptyDiagFiles,
        shows ((path, diagnostics) :: w.sent) file ≠ [] → documents.reached file.dir
  | _ => True

section

variable {w w' : Worker Dir Result Diagnostic} {path : Path Dir} {files : Files Dir}
  {s s' : DocumentStore Dir Result}

theorem published_ensure {result : Result} (h : ensure A files path s = some (result, s')) :
    s'.lastPublishedNonemptyDiagFiles = s.lastPublishedNonemptyDiagFiles := by
  obtain ⟨⟨key, s₁⟩, hensure, h⟩ := Option.bind_eq_some_iff.1 h
  obtain ⟨b, _, h⟩ := Option.bind_eq_some_iff.1 h
  cases h
  rw [DocumentStore.ensureAnalysed] at hensure
  split at hensure
  · split at hensure
    · cases hensure
      rfl
    · cases hensure
  · cases hensure
    rw [DocumentStore.analyseDir_eq, (DocumentStore.evicts_evictLruIfOverCapacity _).published,
      DocumentStore.addBundle_eq]
    exact DocumentStore.published_unindexBundle

theorem published_closureDiagnosticsFor {openPaths : List (Path Dir)}
    {diagnostics : List Diagnostic}
    (h : closureDiagnosticsFor A files path openPaths s = some (diagnostics, s')) :
    s'.lastPublishedNonemptyDiagFiles = s.lastPublishedNonemptyDiagFiles := by
  induction openPaths generalizing s with
  | nil =>
    cases h
    rfl
  | cons openPath openPaths ih =>
    obtain ⟨⟨result, s₁⟩, hensure, h⟩ := Option.bind_eq_some_iff.1 h
    dsimp only at h
    split at h
    · cases h
      exact published_ensure hensure
    · exact (ih h).trans (published_ensure hensure)

theorem Inv.doPublishDiagnostics (h : w.Inv) (path : Path Dir) :
    (w.doPublishDiagnostics A path).Inv := by
  rw [Worker.doPublishDiagnostics]
  split
  · exact h
  · rename_i result documents hensure
    have hinv := h.setDocuments (published_ensure hensure)
    obtain ⟨htracked, hclears⟩ := hinv.tracked.publish (A := A) path result
    exact ⟨htracked, fun r hr => (hclears r hr).elim id (hinv.clears r)⟩

theorem Inv.sweepPath (h : w.Inv) (now : Nat) (path : Path Dir) : (sweepPath A now w path).Inv := by
  rw [Worker.sweepPath]
  split
  · split
    · exact (h.setDeadlines _).doPublishDiagnostics path
    · exact h
  · exact h

theorem Inv.didClose (h : w.Inv) {openPaths : List (Path Dir)}
    (hallowed : w.Allowed A (.didClose path openPaths)) : (w.didClose A path openPaths).Inv := by
  have hclose : (w.documents.close A path).lastPublishedNonemptyDiagFiles =
      w.documents.lastPublishedNonemptyDiagFiles := published_close
  rw [Worker.didClose]
  split
  · exact h.setDocuments hclose
  · rename_i diagnostics documents hclosure
    obtain ⟨hpath, hreached⟩ := hallowed _ _ hclosure
    refine ⟨fun file hshows => ?_, h.clears⟩
    have hmem : file ∈ w.documents.lastPublishedNonemptyDiagFiles := by
      by_cases hfile : path = file
      · subst hfile
        refine hpath ?_
        simpa [shows] using hshows
      · refine h.tracked file ?_
        simpa [shows, hfile] using hshows
    refine List.mem_filter.2 ⟨?_, hreached file hmem hshows⟩
    rwa [published_closureDiagnosticsFor hclosure, hclose]

theorem Inv.step {t : Task Dir} (h : w.Inv) (hallowed : w.Allowed A t)
    (hstep : w.step A t = some w') : w'.Inv := by
  cases t with
  | didOpen path text =>
    cases hstep
    refine Inv.doPublishDiagnostics ((h.setDocuments ?_).setDeadlines _) path
    exact (DocumentStore.evicts_invalidate path _).published
  | didChange path text now =>
    cases hstep
    refine (h.setDocuments ?_).setDeadlines _
    exact (DocumentStore.evicts_invalidate path _).published
  | didChangeWatchedFiles changed now =>
    cases hstep
    exact (h.setDocuments (published_invalidateAll changed _)).setDeadlines _
  | didClose path openPaths =>
    rw [Worker.step] at hstep
    split at hstep
    · cases hstep
      exact h.didClose hallowed
    · cases hstep
  | request path =>
    cases hstep
    split
    · exact h
    · rename_i hensure
      exact h.setDocuments (published_ensure hensure)
  | sweep paths now =>
    rw [Worker.step] at hstep
    split at hstep
    · cases hstep
      exact List.foldlRecOn (motive := Inv) paths _ h fun w h path _ => h.sweepPath now path
    · cases hstep
  | disk files =>
    cases hstep
    exact ⟨h.tracked, h.clears⟩

end

end Worker

/-! ## A file that is closed and then repaired on disk -/

namespace ClosedFile

/-- The checker, on the text `bad`. -/
def check (program : Program) : AList fun _ : Path DirPath => List String :=
  (program.modules.flatMap fun (dir, files) => files.filterMap fun (name, text) =>
    if text = "bad" then some ⟨⟨dir, name⟩, ["error"]⟩ else none).toAList

/-- What the resolver gives for a directory of files without imports. -/
def analyse (root : DirPath) (buffers : Buffers DirPath) (files : Files DirPath) : Program :=
  if root ∈ files then
    { modules := [(root, Resolver.loadAndParse buffers files root)], lookedUp := [root] }
  else { lookedUp := [root] }

theorem analyse_eq : (resolver (fun _ => []) {} check).analyse = analyse := by
  funext root buffers files
  have himports : Resolver.findImports (fun _ => []) root
      (Resolver.loadAndParse buffers files root) = [] := by
    rw [Resolver.findImports, List.flatMap_eq_nil_iff]
    exact fun _ _ => rfl
  change Resolver.resolve _ _ _ _ _ = _
  rw [Resolver.resolve, himports, Resolver.visit]
  rfl

/-- The resolver with this checker. -/
def analyser : Analyser DirPath Program String where
  analyse := analyse
  modules := Program.loaded
  lookedUp := Program.lookedUp
  grouped := check
  confined := analyse_eq ▸ (resolver (fun _ => []) {} check).confined

theorem analyser_eq : analyser = resolver (fun _ => []) {} check :=
  Analyser.ext analyse_eq.symm rfl rfl rfl

def a : Path DirPath := ⟨["app"], "a.mir"⟩

def b : Path DirPath := ⟨["app"], "b.mir"⟩

/-- The directory with an error in `b`, and without. -/
def disk (text : String) : Files DirPath :=
  AList.singleton ["app"] [("a.mir", ""), ("b.mir", text)]

/-- The error on disk is hidden by the buffer of `b` until it is closed; then it is repaired. -/
def tasks : List (Task DirPath) :=
  [.didOpen b "", .didOpen a "", .didClose b [a], .disk (disk ""), .didChangeWatchedFiles [b] 0,
    .sweep [a] 200]

/-- An error in the buffer of `b` that is repaired there. -/
def repair : List (Task DirPath) := [.didOpen b "bad", .didChange b "" 0, .sweep [b] 200]

/-- The round does not clear the file. -/
def leaves (r : Round DirPath String) (file : Path DirPath) : Bool :=
  Worker.shows r.before file ≠ [] ∧ file.dir ∈ r.closureDirs ∧
    (r.found.lookup file).getD [] = [] ∧ (file, []) ∉ r.sends

end ClosedFile

end Mirage.Lsp
