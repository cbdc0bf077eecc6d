import Mirage.Lib.Actions
import Mirage.Lsp.Resolver

/-!
# The cache of the document store is coherent

The index and the cached bundles always agree, and there are never too many bundles: this is
`Coherent`, and every operation keeps it. That a cached result is *up to date* is another
matter. The store drops the bundles that have a changed file's directory in their closure, so
what it cannot see is a change to a directory that an analysis looked up in vain: the import
that failed stays failed. `Disk.Fresh` is the invariant for the changes that come to no
such directory.

* `ensureAnalysed_coherent`: over all runs, with the condition on the changes on disk, the bundle
  that `ensure_analysed` gives is cached, covers the directory where a fresh analysis does, and
  is what a fresh analysis of its root gives;
* `missing_module_stale`: a module that is created after an import of it failed.
-/

namespace Mirage.Lsp

namespace DocumentStore

variable {Dir Result Diagnostic : Type} [DecidableEq Dir] {A : Analyser Dir Result Diagnostic}

/-! ## The index -/

section Index

variable {key k dir d : Dir} {index : AList fun _ : Dir => List Dir}

theorem mem_unindexDir : k ∈ ((unindexDir key index dir).lookup d).getD [] ↔
    k ∈ (index.lookup d).getD [] ∧ ¬ (k = key ∧ d = dir) := by
  rw [unindexDir]
  split
  · rename_i hnone
    refine ⟨fun h => ⟨h, ?_⟩, And.left⟩
    rintro ⟨_, rfl⟩
    rw [hnone] at h
    cases h
  · rename_i keys hkeys
    by_cases h : d = dir
    · subst h
      dsimp only
      split
      · rename_i hempty
        have := List.isEmpty_iff.1 hempty
        simp only [List.filter_eq_nil_iff, decide_eq_true_eq, not_not] at this
        simp only [AList.lookup_erase, Option.getD_none, List.not_mem_nil, hkeys,
          Option.getD_some, false_iff, and_true, not_and, not_not]
        exact this k
      · simp [hkeys]
    · dsimp only
      split
      · simp [AList.lookup_erase_ne h, h]
      · simp [AList.lookup_insert_ne h, h]

/-- No entry of the index is empty. -/
def Occupied (index : AList fun _ : Dir => List Dir) : Prop := ∀ d, index.lookup d ≠ some []

theorem Occupied.unindexDir (h : Occupied index) : Occupied (unindexDir key index dir) := by
  intro d
  rw [DocumentStore.unindexDir]
  split
  · exact h d
  · dsimp only
    by_cases hd : d = dir
    · subst hd
      split
      · simp
      · rename_i hne
        rw [AList.lookup_insert]
        exact fun heq => hne (by rw [Option.some.inj heq]; rfl)
    · split
      · rw [AList.lookup_erase_ne hd]
        exact h d
      · rw [AList.lookup_insert_ne hd]
        exact h d

theorem mem_foldl_unindexDir {dirs : List Dir} :
    k ∈ ((dirs.foldl (unindexDir key) index).lookup d).getD [] ↔
      k ∈ (index.lookup d).getD [] ∧ ¬ (k = key ∧ d ∈ dirs) := by
  induction dirs generalizing index with
  | nil => simp
  | cons dir dirs ih =>
    rw [List.foldl_cons, ih, mem_unindexDir, List.mem_cons]
    tauto

end Index

/-- The keys of the bundles the index gives for a directory. -/
def keysOf (s : DocumentStore Dir Result) (dir : Dir) : List Dir :=
  (s.bundleOfDir.lookup dir).getD []

/-- The bundle is cached and has the directory in its closure. -/
def Covers (A : Analyser Dir Result Diagnostic) (s : DocumentStore Dir Result) (key dir : Dir) :
    Prop := ∃ b, s.moduleResults.lookup key = some b ∧ dir ∈ A.modules b.result

/-- The index is about the cached bundles. -/
structure Indexed (A : Analyser Dir Result Diagnostic) (s : DocumentStore Dir Result) :
    Prop where
  index : ∀ dir key, key ∈ s.keysOf dir ↔ s.Covers A key dir
  occupied : Occupied s.bundleOfDir

/-! ## Evictions -/

/-- Some bundles are dropped, and nothing else changes. -/
structure Evicts (A : Analyser Dir Result Diagnostic) (s s' : DocumentStore Dir Result) :
    Prop where
  indexed : s.Indexed A → s'.Indexed A
  sub : ∀ key b, s'.moduleResults.lookup key = some b → s.moduleResults.lookup key = some b
  length_le : s'.moduleResults.entries.length ≤ s.moduleResults.entries.length
  openTexts : s'.openTexts = s.openTexts
  published : s'.lastPublishedNonemptyDiagFiles = s.lastPublishedNonemptyDiagFiles
  clock : s'.accessClock = s.accessClock

section Evicts

variable {s s' s'' : DocumentStore Dir Result} {key k d : Dir}

theorem Evicts.refl (s : DocumentStore Dir Result) : Evicts A s s :=
  ⟨id, fun _ _ h => h, le_refl _, rfl, rfl, rfl⟩

theorem Evicts.trans (h : Evicts A s s') (h' : Evicts A s' s'') : Evicts A s s'' where
  indexed := h'.indexed ∘ h.indexed
  sub key b hb := h.sub key b (h'.sub key b hb)
  length_le := h'.length_le.trans h.length_le
  openTexts := h'.openTexts.trans h.openTexts
  published := h'.published.trans h.published
  clock := h'.clock.trans h.clock

theorem Evicts.foldl {f : DocumentStore Dir Result → Dir → DocumentStore Dir Result}
    (h : ∀ s key, Evicts A s (f s key)) (s : DocumentStore Dir Result) (keys : List Dir) :
    Evicts A s (keys.foldl f s) := by
  induction keys generalizing s with
  | nil => exact .refl s
  | cons key keys ih => exact (h s key).trans (ih _)

theorem Evicts.covers (h : Evicts A s s') (hd : s'.Covers A key d) : s.Covers A key d :=
  have ⟨b, hb, hd⟩ := hd
  ⟨b, h.sub _ _ hb, hd⟩

theorem mem_keysOf_unindexBundle : k ∈ (s.unindexBundle A key).keysOf d ↔
    k ∈ s.keysOf d ∧ ¬ (k = key ∧ s.Covers A key d) := by
  rw [unindexBundle]
  split
  · rename_i hnone
    refine ⟨fun h => ⟨h, ?_⟩, And.left⟩
    rintro ⟨_, b, hb, _⟩
    rw [hnone] at hb
    cases hb
  · rename_i b hb
    have hcovers : s.Covers A key d ↔ d ∈ A.modules b.result :=
      ⟨fun ⟨_, hb', hd⟩ => Option.some.inj (hb.symm.trans hb') ▸ hd, fun hd => ⟨b, hb, hd⟩⟩
    rw [hcovers]
    exact mem_foldl_unindexDir

theorem occupied_unindexBundle (h : Occupied s.bundleOfDir) :
    Occupied (s.unindexBundle A key).bundleOfDir := by
  rw [unindexBundle]
  split
  · exact h
  · exact List.foldlRecOn _ _ h fun _ h _ _ => h.unindexDir

@[simp] theorem moduleResults_unindexBundle :
    (s.unindexBundle A key).moduleResults = s.moduleResults := by
  rw [unindexBundle]
  split <;> rfl

@[simp] theorem openTexts_unindexBundle : (s.unindexBundle A key).openTexts = s.openTexts := by
  rw [unindexBundle]
  split <;> rfl

@[simp] theorem published_unindexBundle :
    (s.unindexBundle A key).lastPublishedNonemptyDiagFiles = s.lastPublishedNonemptyDiagFiles := by
  rw [unindexBundle]
  split <;> rfl

@[simp] theorem accessClock_unindexBundle :
    (s.unindexBundle A key).accessClock = s.accessClock := by
  rw [unindexBundle]
  split <;> rfl

theorem lookup_eraseBundle : (s.eraseBundle A key).moduleResults.lookup k =
    if k = key then none else s.moduleResults.lookup k := by
  rw [eraseBundle, moduleResults_unindexBundle]
  split
  · rename_i h
    rw [h, AList.lookup_erase]
  · rename_i h
    rw [AList.lookup_erase_ne h]

theorem covers_eraseBundle : (s.eraseBundle A key).Covers A k d ↔ k ≠ key ∧ s.Covers A k d := by
  rw [Covers, Covers, lookup_eraseBundle]
  split
  · rename_i h
    simp [h]
  · rename_i h
    simp [h]

theorem Indexed.eraseBundle (h : s.Indexed A) : (s.eraseBundle A key).Indexed A := by
  refine ⟨fun d k => ?_, occupied_unindexBundle h.occupied⟩
  rw [covers_eraseBundle]
  refine mem_keysOf_unindexBundle.trans ?_
  rw [h.index]
  constructor
  · rintro ⟨hk, hne⟩
    exact ⟨fun heq => hne ⟨heq, heq ▸ hk⟩, hk⟩
  · rintro ⟨hne, hk⟩
    exact ⟨hk, fun h => hne h.1⟩

theorem length_erase_le (l : AList fun _ : Dir => CachedBundle Result) (key : Dir) :
    (l.erase key).entries.length ≤ l.entries.length :=
  (List.kerase_sublist key l.entries).length_le

theorem evicts_eraseBundle (s : DocumentStore Dir Result) (key : Dir) :
    Evicts A s (s.eraseBundle A key) where
  indexed := Indexed.eraseBundle
  sub k b hb := by
    rw [lookup_eraseBundle] at hb
    split at hb
    · cases hb
    · exact hb
  length_le := by
    rw [eraseBundle, moduleResults_unindexBundle]
    exact length_erase_le _ key
  openTexts := openTexts_unindexBundle
  published := published_unindexBundle
  clock := accessClock_unindexBundle

theorem evicts_invalidate (path : Path Dir) (s : DocumentStore Dir Result) :
    Evicts A s (s.invalidate A path) := by
  rw [invalidate]
  split
  · exact .refl s
  · exact .foldl evicts_eraseBundle s _

theorem evicts_evictIfUnreferenced (s : DocumentStore Dir Result) (key : Dir) :
    Evicts A s (s.evictIfUnreferenced A key) := by
  rw [evictIfUnreferenced]
  split
  · exact .refl s
  · split
    · exact .refl s
    · exact evicts_eraseBundle s key

theorem evicts_evictUnreferencedBundles (s : DocumentStore Dir Result) :
    Evicts A s (s.evictUnreferencedBundles A) := .foldl evicts_evictIfUnreferenced s _

theorem evicts_evictLruIfOverCapacity (s : DocumentStore Dir Result) :
    Evicts A s (s.evictLruIfOverCapacity A) := by
  rw [evictLruIfOverCapacity]
  split
  · exact .refl s
  · split
    · exact .refl s
    · exact evicts_eraseBundle s _

/-- The bundles of the keys are gone. -/
theorem covers_foldl_eraseBundle {keys : List Dir} :
    (keys.foldl (eraseBundle A) s).Covers A k d ↔ k ∉ keys ∧ s.Covers A k d := by
  induction keys generalizing s with
  | nil => simp
  | cons key keys ih =>
    rw [List.foldl_cons, ih, covers_eraseBundle, List.mem_cons]
    tauto

/-- After an invalidation no bundle covers the directory of the file. -/
theorem not_covers_invalidate (h : s.Indexed A) (path : Path Dir) :
    ¬ (s.invalidate A path).Covers A k path.dir := by
  rw [invalidate]
  split
  · rename_i hnone
    rw [← h.index, keysOf, hnone]
    exact List.not_mem_nil
  · rename_i keys hkeys
    rw [covers_foldl_eraseBundle, ← h.index, keysOf, hkeys]
    exact fun h => h.1 h.2

end Evicts

/-- The tables of the store agree. -/
structure Coherent (A : Analyser Dir Result Diagnostic) (s : DocumentStore Dir Result) : Prop
    extends Indexed A s where
  bounded : s.moduleResults.entries.length ≤ maxCachedModules
  accessed : ∀ key b, s.moduleResults.lookup key = some b → b.lastAccess ≤ s.accessClock


theorem Coherent.evicts {s s' : DocumentStore Dir Result} (h : s.Coherent A)
    (hs : Evicts A s s') : s'.Coherent A where
  toIndexed := hs.indexed h.toIndexed
  bounded := hs.length_le.trans h.bounded
  accessed key b hb := hs.clock ▸ h.accessed key b (hs.sub key b hb)

/-- The operations on buffers leave the other tables alone. -/
theorem Coherent.setTexts {s : DocumentStore Dir Result} (h : s.Coherent A) (texts : Buffers Dir) :
    { s with openTexts := texts }.Coherent A := ⟨⟨h.index, h.occupied⟩, h.bounded, h.accessed⟩

/-! ## Analyses -/

section Ensure

variable {s : DocumentStore Dir Result} {files : Files Dir} {key k d dir : Dir}

theorem tick_eq {clock : Nat} (h : clock + 1 < 2 ^ 64) : tick clock = clock + 1 :=
  Nat.mod_eq_of_lt h

omit [DecidableEq Dir] in
theorem length_keys (l : AList fun _ : Dir => CachedBundle Result) :
    l.keys.length = l.entries.length := List.length_map _

theorem length_insert_le (l : AList fun _ : Dir => CachedBundle Result) (key : Dir)
    (b : CachedBundle Result) : (l.insert key b).entries.length ≤ l.entries.length + 1 := by
  rw [← length_keys, ← length_keys, AList.keys_insert, List.length_cons]
  exact Nat.succ_le_succ List.length_erase_le

theorem length_insert_of_mem {l : AList fun _ : Dir => CachedBundle Result} (h : key ∈ l)
    (b : CachedBundle Result) : (l.insert key b).entries.length = l.entries.length := by
  have hkey : key ∈ l.keys := AList.mem_keys.1 h
  have hpos : 0 < l.keys.length := List.length_pos_of_mem hkey
  rw [← length_keys, ← length_keys, AList.keys_insert, List.length_cons,
    List.length_erase_of_mem hkey]
  omega

theorem mem_of_lookup {l : AList fun _ : Dir => CachedBundle Result} {b : CachedBundle Result}
    (h : l.lookup key = some b) : key ∈ l :=
  AList.lookup_isSome.1 (h ▸ rfl)

theorem length_eraseBundle {b : CachedBundle Result} (h : s.moduleResults.lookup key = some b) :
    (s.eraseBundle A key).moduleResults.entries.length = s.moduleResults.entries.length - 1 := by
  rw [eraseBundle, moduleResults_unindexBundle, ← length_keys, AList.keys_erase,
    List.length_erase_of_mem (AList.mem_keys.1 (mem_of_lookup h)), length_keys]

theorem covers_access {b : CachedBundle Result} (hb : s.moduleResults.lookup key = some b) :
    (s.access key b).Covers A k d ↔ s.Covers A k d := by
  by_cases h : k = key
  · subst h
    simp [Covers, access, hb]
  · simp [Covers, access, AList.lookup_insert_ne h]

theorem Coherent.access (h : s.Coherent A) (hclock : s.accessClock + 1 < 2 ^ 64)
    {b : CachedBundle Result} (hb : s.moduleResults.lookup key = some b) :
    (s.access key b).Coherent A where
  index d k := (h.index d k).trans (covers_access hb).symm
  occupied := h.occupied
  bounded := (length_insert_of_mem (mem_of_lookup hb) _).trans_le h.bounded
  accessed k b' hb' := by
    rw [DocumentStore.access] at hb' ⊢
    dsimp only at hb' ⊢
    rw [tick_eq hclock] at hb' ⊢
    by_cases hk : k = key
    · subst hk
      rw [AList.lookup_insert] at hb'
      cases hb'
      exact le_refl _
    · rw [AList.lookup_insert_ne hk] at hb'
      exact (h.accessed k b' hb').trans (Nat.le_succ _)

/-! The eviction of the oldest bundle drops another one than the newest. -/

omit [DecidableEq Dir] in
theorem older_mem {e : Σ _ : Dir, CachedBundle Result} {es : List (Σ _ : Dir, CachedBundle Result)} :
    es.foldl older e ∈ e :: es := by
  induction es generalizing e with
  | nil => exact List.mem_cons_self
  | cons x es ih =>
    rw [List.foldl_cons]
    have h := List.mem_cons.1 (ih (e := older e x))
    rw [older] at h ⊢
    split at h
    · rw [if_pos ‹_›]
      exact List.mem_cons_of_mem _ (List.mem_cons.2 h)
    · rw [if_neg ‹_›]
      exact List.mem_cons.2 (h.imp_right (List.mem_cons_of_mem _))

omit [DecidableEq Dir] in
theorem older_le {e x : Σ _ : Dir, CachedBundle Result}
    {es : List (Σ _ : Dir, CachedBundle Result)} (hx : x ∈ e :: es) :
    (es.foldl older e).2.lastAccess ≤ x.2.lastAccess := by
  induction es generalizing e x with
  | nil =>
    rw [List.mem_singleton.1 hx]
    exact le_refl _
  | cons y es ih =>
    rw [List.foldl_cons]
    have hle : (es.foldl older (older e y)).2.lastAccess ≤ (older e y).2.lastAccess :=
      ih List.mem_cons_self
    have hmin : (older e y).2.lastAccess ≤ e.2.lastAccess ∧
        (older e y).2.lastAccess ≤ y.2.lastAccess := by
      rw [older]
      split <;> omega
    rcases List.mem_cons.1 hx with rfl | hx
    · exact hle.trans hmin.1
    · rcases List.mem_cons.1 hx with rfl | hx
      · exact hle.trans hmin.2
      · exact ih (List.mem_cons_of_mem _ hx)

theorem lookup_of_mem {l : AList fun _ : Dir => CachedBundle Result}
    {e : Σ _ : Dir, CachedBundle Result} (h : e ∈ l.entries) : l.lookup e.1 = some e.2 :=
  AList.mem_lookup_iff.2 h

/-- With a newest bundle, what is left after the eviction of the oldest one is not too many, and
    the newest is among it. -/
theorem lookup_evictLru {b : CachedBundle Result} (hb : s.moduleResults.lookup key = some b)
    (hnew : ∀ k b', k ≠ key → s.moduleResults.lookup k = some b' → b'.lastAccess < b.lastAccess)
    (hlength : s.moduleResults.entries.length ≤ maxCachedModules + 1) :
    (s.evictLruIfOverCapacity A).moduleResults.lookup key = some b ∧
      (s.evictLruIfOverCapacity A).moduleResults.entries.length ≤ maxCachedModules := by
  rw [evictLruIfOverCapacity]
  split
  · exact ⟨hb, ‹_›⟩
  · rename_i hover
    cases hentries : s.moduleResults.entries with
    | nil => simp [hentries] at hover
    | cons e es =>
      rw [hentries] at hover
      have hmem : es.foldl older e ∈ s.moduleResults.entries := hentries ▸ older_mem
      have hlookup := lookup_of_mem hmem
      have hne : (es.foldl older e).1 ≠ key := by
        intro heq
        -- then all other bundles are as new
        obtain ⟨x, hx, hxkey⟩ : ∃ x ∈ s.moduleResults.keys, x ≠ key := by
          by_contra hall
          push Not at hall
          have hrep := List.eq_replicate_of_mem hall
          have hnodup := s.moduleResults.keys_nodup
          rw [hrep, List.nodup_replicate, length_keys, hentries] at hnodup
          simp only [maxCachedModules] at hover
          omega
        obtain ⟨b', hb'⟩ := Option.isSome_iff_exists.1 (AList.lookup_isSome.2 (AList.mem_keys.2 hx))
        have hlt := hnew x b' hxkey hb'
        have hle := older_le (hentries ▸ AList.mem_lookup_iff.1 hb' : (⟨x, b'⟩ : Sigma _) ∈ e :: es)
        have hkey : s.moduleResults.lookup key = some (es.foldl older e).2 := heq ▸ hlookup
        rw [hb] at hkey
        rw [← Option.some.inj hkey] at hle
        exact absurd hlt (not_lt.2 hle)
      refine ⟨?_, ?_⟩
      · rw [lookup_eraseBundle, if_neg hne.symm, hb]
      · have := length_eraseBundle (A := A) hlookup
        change (s.eraseBundle A _).moduleResults.entries.length ≤ _
        omega

/-- What `ensure_analysed` gives. -/
structure Ensures (A : Analyser Dir Result Diagnostic) (files : Files Dir) (path : Path Dir)
    (s : DocumentStore Dir Result) (key : Dir) (s' : DocumentStore Dir Result) : Prop where
  coherent : s'.Coherent A
  openTexts : s'.openTexts = s.openTexts
  published : s'.lastPublishedNonemptyDiagFiles = s.lastPublishedNonemptyDiagFiles
  /-- Every cached result is an earlier one or that of a fresh analysis. -/
  results : ∀ k b, s'.moduleResults.lookup k = some b →
    (∃ b', s.moduleResults.lookup k = some b' ∧ b'.result = b.result) ∨
      k = path.dir ∧ b.result = A.analyse path.dir s.openTexts files
  /-- The bundle is cached; it covers the directory or is that of a fresh analysis. -/
  cached : ∃ b, s'.moduleResults.lookup key = some b ∧
    (path.dir ∈ A.modules b.result ∨
      key = path.dir ∧ b.result = A.analyse path.dir s.openTexts files)

variable [LE Dir] [DecidableLE Dir]

section

variable {index : AList fun _ : Dir => List Dir}

theorem mem_insertKey {keys : List Dir} : k ∈ insertKey key keys ↔ k ∈ keys ∨ k = key := by
  rw [insertKey]
  split
  · rename_i h
    exact ⟨.inl, fun h' => h'.elim id fun h' => h' ▸ h⟩
  · rw [List.mem_orderedInsert, or_comm]

theorem mem_indexDir : k ∈ ((indexDir key index dir).lookup d).getD [] ↔
    k ∈ (index.lookup d).getD [] ∨ k = key ∧ d = dir := by
  rw [indexDir]
  by_cases h : d = dir
  · subst h
    simp [mem_insertKey]
  · simp [AList.lookup_insert_ne h, h]

theorem Occupied.indexDir (h : Occupied index) : Occupied (indexDir key index dir) := by
  intro d
  rw [DocumentStore.indexDir]
  by_cases hd : d = dir
  · subst hd
    rw [AList.lookup_insert]
    intro heq
    have hkey : key ∈ insertKey key ((index.lookup d).getD []) := mem_insertKey.2 (.inr rfl)
    rw [Option.some.inj heq] at hkey
    cases hkey
  · rw [AList.lookup_insert_ne hd]
    exact h d

theorem mem_foldl_indexDir {dirs : List Dir} :
    k ∈ ((dirs.foldl (indexDir key) index).lookup d).getD [] ↔
      k ∈ (index.lookup d).getD [] ∨ k = key ∧ d ∈ dirs := by
  induction dirs generalizing index with
  | nil => simp
  | cons dir dirs ih =>
    rw [List.foldl_cons, ih, mem_indexDir, List.mem_cons]
    tauto

end

/-- The store with a new bundle, before evictions. -/
def addBundle (A : Analyser Dir Result Diagnostic) (dir : Dir) (b : CachedBundle Result)
    (s : DocumentStore Dir Result) : DocumentStore Dir Result :=
  indexBundle A dir { s.unindexBundle A dir with
    moduleResults := s.moduleResults.insert dir b
    accessClock := tick s.accessClock }

theorem addBundle_eq (dir : Dir) (b : CachedBundle Result) : s.addBundle A dir b =
    { s.unindexBundle A dir with
      moduleResults := s.moduleResults.insert dir b
      accessClock := tick s.accessClock
      bundleOfDir :=
        (A.modules b.result).foldl (indexDir dir) (s.unindexBundle A dir).bundleOfDir } := by
  rw [addBundle, indexBundle]
  simp only [AList.lookup_insert]

theorem analyseDir_eq : s.analyseDir A files dir =
    (s.addBundle A dir ⟨A.analyse dir s.openTexts files, tick s.accessClock⟩).evictLruIfOverCapacity
      A := by
  simp only [analyseDir, addBundle, openTexts_unindexBundle, accessClock_unindexBundle,
    moduleResults_unindexBundle]

theorem covers_addBundle {b : CachedBundle Result} : (s.addBundle A dir b).Covers A k d ↔
    (k ≠ dir ∧ s.Covers A k d) ∨ k = dir ∧ d ∈ A.modules b.result := by
  rw [addBundle_eq]
  by_cases h : k = dir
  · subst h
    simp [Covers]
  · simp [Covers, AList.lookup_insert_ne h, h]

theorem Indexed.addBundle (h : s.Indexed A) (b : CachedBundle Result) :
    (s.addBundle A dir b).Indexed A := by
  refine ⟨fun d k => ?_, ?_⟩
  · rw [covers_addBundle, ← h.index d k]
    have hindex : k ∈ (s.addBundle A dir b).keysOf d ↔
        k ∈ (s.unindexBundle A dir).keysOf d ∨ k = dir ∧ d ∈ A.modules b.result := by
      rw [addBundle_eq]
      exact mem_foldl_indexDir
    rw [hindex, mem_keysOf_unindexBundle]
    by_cases hk : k = dir
    · subst hk
      rw [← h.index d k]
      tauto
    · tauto
  · rw [addBundle_eq]
    exact List.foldlRecOn _ _ (occupied_unindexBundle h.occupied) fun _ h _ _ => h.indexDir

theorem ensures_analyseDir (h : s.Coherent A) (hclock : s.accessClock + 1 < 2 ^ 64)
    (path : Path Dir) :
    Ensures A files path s path.dir (s.analyseDir A files path.dir) := by
  rw [analyseDir_eq]
  set b : CachedBundle Result := ⟨A.analyse path.dir s.openTexts files, tick s.accessClock⟩ with hb
  have hadd := addBundle_eq (A := A) (s := s) path.dir b
  have hresults : (s.addBundle A path.dir b).moduleResults = s.moduleResults.insert path.dir b := by
    rw [hadd]
  have hclock' : (s.addBundle A path.dir b).accessClock = s.accessClock + 1 := by
    rw [hadd]
    exact tick_eq hclock
  have hlookup : (s.addBundle A path.dir b).moduleResults.lookup path.dir = some b := by
    rw [hresults, AList.lookup_insert]
  have hold : ∀ k b', k ≠ path.dir → (s.addBundle A path.dir b).moduleResults.lookup k = some b' →
      s.moduleResults.lookup k = some b' := by
    intro k b' hk hb'
    rwa [hresults, AList.lookup_insert_ne hk] at hb'
  have hevicts := evicts_evictLruIfOverCapacity (A := A) (s.addBundle A path.dir b)
  obtain ⟨hnew, hlength⟩ := lookup_evictLru (A := A) hlookup
    (fun k b' hk hb' => by
      have := h.accessed k b' (hold k b' hk hb')
      rw [hb, tick_eq hclock]
      exact Nat.lt_succ_of_le this)
    (by
      rw [hresults]
      exact (length_insert_le _ _ _).trans (Nat.succ_le_succ h.bounded))
  refine ⟨⟨hevicts.indexed (h.toIndexed.addBundle b), hlength, ?_⟩, ?_, ?_, ?_, b, hnew, ?_⟩
  · intro k b' hb'
    rw [hevicts.clock, hclock']
    have hb' := hevicts.sub k b' hb'
    by_cases hk : k = path.dir
    · rw [hk, hlookup] at hb'
      rw [← Option.some.inj hb', hb, tick_eq hclock]
    · exact (h.accessed k b' (hold k b' hk hb')).trans (Nat.le_succ _)
  · rw [hevicts.openTexts, hadd]
    exact openTexts_unindexBundle
  · rw [hevicts.published, hadd]
    exact published_unindexBundle
  · intro k b' hb'
    have hb' := hevicts.sub k b' hb'
    by_cases hk : k = path.dir
    · rw [hk, hlookup] at hb'
      exact .inr ⟨hk, by rw [← Option.some.inj hb']⟩
    · exact .inl ⟨b', hold k b' hk hb', rfl⟩
  · exact .inr ⟨rfl, rfl⟩

/-- Until the clock wraps around, `ensure_analysed` gives a cached bundle and never throws. -/
theorem ensures_ensureAnalysed (h : s.Coherent A) (hclock : s.accessClock + 1 < 2 ^ 64)
    (files : Files Dir) (path : Path Dir) :
    ∃ key s', s.ensureAnalysed A files path = some (key, s') ∧ Ensures A files path s key s' := by
  rw [ensureAnalysed]
  split
  · rename_i key keys hkeys
    have hkey : s.Covers A key path.dir := by
      rw [← h.index, keysOf, hkeys]
      exact List.mem_cons_self
    obtain ⟨b, hb, hd⟩ := hkey
    simp only [hb]
    refine ⟨key, _, rfl, h.access hclock hb, rfl, rfl, fun k b' hb' => .inl ?_, ?_⟩
    · by_cases hk : k = key
      · subst hk
        rw [access, AList.lookup_insert] at hb'
        exact ⟨b, hb, by rw [← Option.some.inj hb']⟩
      · rw [access, AList.lookup_insert_ne hk] at hb'
        exact ⟨b', hb', rfl⟩
    · exact ⟨_, AList.lookup_insert _, .inl hd⟩
  · exact ⟨_, _, rfl, ensures_analyseDir h hclock path⟩

end Ensure

end DocumentStore

/-! ## Runs with changes on disk -/

/-- The store with the files on disk. -/
structure Disk (Dir Result : Type) [DecidableEq Dir] where
  store : DocumentStore Dir Result := {}
  files : Files Dir
  /-- The changed files of which the store has not been told. -/
  unreported : List (Path Dir) := []

/-- An operation of the store, or a change on disk. -/
inductive Action (Dir : Type)
  | open (path : Path Dir) (text : String)
  | update (path : Path Dir) (text : String)
  | close (path : Path Dir)
  | invalidateExternal (path : Path Dir)
  | ensureAnalysed (path : Path Dir)
  /-- A file is changed or created: its directory has new files, and the directories above it
      exist afterwards. -/
  | change (path : Path Dir) (listing : List (String × String)) (parents : List Dir)

namespace Disk

variable {Dir Result Diagnostic : Type} [DecidableEq Dir] (A : Analyser Dir Result Diagnostic)

/-- Make a directory. -/
def makeDir (files : Files Dir) (dir : Dir) : Files Dir :=
  if dir ∈ files then files else files.insert dir []

/-- The files after a change in a directory. -/
def changed (files : Files Dir) (path : Path Dir) (listing : List (String × String))
    (parents : List Dir) : Files Dir :=
  (parents.foldl makeDir files).insert path.dir listing

variable [LE Dir] [DecidableLE Dir] in
/-- Take an action. An analysis starts when the store has been told of all changes. -/
def step (w : Disk Dir Result) : Action Dir → Option (Disk Dir Result)
  | .open path text => some { w with store := w.store.open A path text }
  | .update path text => some { w with store := w.store.update A path text }
  | .close path => some { w with store := w.store.close A path }
  | .invalidateExternal path => some { w with
      store := w.store.invalidateExternal A path
      unreported := w.unreported.filter (· ≠ path) }
  | .ensureAnalysed path =>
    if w.unreported.isEmpty then
      (w.store.ensureAnalysed A w.files path).map fun r => { w with store := r.2 }
    else none
  | .change path listing parents => some { w with
      files := changed w.files path listing parents
      unreported := path :: w.unreported }

/-- A change on disk comes to no directory that the analysis of a cached bundle has looked up and
    not loaded, and the access clock does not wrap around. -/
def Allowed (w : Disk Dir Result) : Action Dir → Prop
  | .ensureAnalysed _ => w.store.accessClock + 1 < 2 ^ 64
  | .change path listing parents =>
    ∀ key b, w.store.moduleResults.lookup key = some b → ∀ d ∈ A.lookedUp b.result,
      (changed w.files path listing parents).lookup d ≠ w.files.lookup d →
        d = path.dir ∧ d ∈ A.modules b.result
  | _ => True

/-- Every cached result is that of an analysis of files and buffers that have not changed since,
    but for unreported changes in its closure. -/
def Fresh (w : Disk Dir Result) : Prop :=
  ∀ key b, w.store.moduleResults.lookup key = some b → ∃ texts files,
    b.result = A.analyse key texts files ∧
    (∀ d ∈ A.lookedUp b.result, w.files.lookup d = files.lookup d ∨
      d ∈ A.modules b.result ∧ ∃ p ∈ w.unreported, p.dir = d) ∧
    ∀ p : Path Dir, p.dir ∈ A.modules b.result → w.store.openTexts.lookup p = texts.lookup p

/-- What holds in all states. -/
structure Inv (w : Disk Dir Result) : Prop where
  coherent : w.store.Coherent A
  fresh : w.Fresh A

variable {A}

theorem inv_init (files : Files Dir) : Inv A { files : Disk Dir Result } := by
  refine ⟨⟨⟨fun dir key => ?_, fun dir h => ?_⟩, Nat.zero_le _, fun key b h => ?_⟩,
    fun key b h => ?_⟩
  · exact ⟨fun h => absurd h List.not_mem_nil, fun ⟨_, h, _⟩ => nomatch h⟩
  · cases h
  · cases h
  · cases h

/-- The store may drop bundles, and change the buffer of a file that no bundle is left to cover. -/
theorem Fresh.evicts {w : Disk Dir Result} (h : w.Fresh A) {s : DocumentStore Dir Result}
    (path : Path Dir)
    (hsub : ∀ key b, s.moduleResults.lookup key = some b →
      w.store.moduleResults.lookup key = some b)
    (hcovers : ∀ key, ¬ s.Covers A key path.dir)
    (htexts : ∀ p, p ≠ path → s.openTexts.lookup p = w.store.openTexts.lookup p) :
    { w with store := s }.Fresh A := by
  intro key b hb
  obtain ⟨texts, files, hresult, hfiles, hbuffers⟩ := h key b (hsub key b hb)
  refine ⟨texts, files, hresult, hfiles, fun p hp => ?_⟩
  have hne : p ≠ path := by
    rintro rfl
    exact hcovers key ⟨b, hb, hp⟩
  exact (htexts p hne).trans (hbuffers p hp)

/-- Changing the buffer of a file and invalidating it. -/
theorem Inv.invalidate {w : Disk Dir Result} (h : w.Inv A) (path : Path Dir) {texts : Buffers Dir}
    (htexts : ∀ p, p ≠ path → texts.lookup p = w.store.openTexts.lookup p)
    {s : DocumentStore Dir Result}
    (hs : DocumentStore.Evicts A ({ w.store with openTexts := texts }.invalidate A path) s) :
    { w with store := s }.Inv A := by
  have hcoherent := h.coherent.setTexts texts
  have hevicts := DocumentStore.evicts_invalidate (A := A) path { w.store with openTexts := texts }
  refine ⟨hcoherent.evicts (hevicts.trans hs), ?_⟩
  refine Fresh.evicts h.fresh path (fun key b hb => ?_) (fun key hkey => ?_) fun p hp => ?_
  · exact hevicts.sub key b (hs.sub key b hb)
  · exact DocumentStore.not_covers_invalidate hcoherent.toIndexed path (hs.covers hkey)
  · rw [(hevicts.trans hs).openTexts]
    exact htexts p hp

theorem lookup_insert_other {texts : Buffers Dir} {path p : Path Dir} (text : String)
    (h : p ≠ path) : (texts.insert path text).lookup p = texts.lookup p :=
  AList.lookup_insert_ne h

theorem Inv.invalidateExternal {w : Disk Dir Result} (h : w.Inv A) (path : Path Dir) :
    Inv A { w with
      store := w.store.invalidateExternal A path
      unreported := w.unreported.filter (· ≠ path) } := by
  obtain ⟨hcoherent, hfresh⟩ := h.invalidate path (fun _ _ => rfl) (.refl _)
  refine ⟨hcoherent, fun key b hb => ?_⟩
  obtain ⟨texts, files, hresult, hfiles, hbuffers⟩ := hfresh key b hb
  refine ⟨texts, files, hresult, fun d hd => (hfiles d hd).imp_right ?_, hbuffers⟩
  rintro ⟨hmodule, p, hp, hpd⟩
  refine ⟨hmodule, p, List.mem_filter.2 ⟨hp, decide_eq_true ?_⟩, hpd⟩
  rintro rfl
  -- the bundle is among those that were dropped
  subst hpd
  exact DocumentStore.not_covers_invalidate h.coherent.toIndexed p ⟨b, hb, hmodule⟩

theorem Inv.ensureAnalysed {w : Disk Dir Result} (h : w.Inv A) {path : Path Dir} {key : Dir}
    {s : DocumentStore Dir Result} (hs : DocumentStore.Ensures A w.files path w.store key s) :
    { w with store := s }.Inv A := by
  refine ⟨hs.coherent, fun k b hb => ?_⟩
  rw [hs.openTexts]
  obtain ⟨b', hb', hresult⟩ | ⟨rfl, hresult⟩ := hs.results k b hb
  · rw [← hresult]
    exact h.fresh k b' hb'
  · exact ⟨_, _, hresult, fun _ _ => .inl rfl, fun _ _ => rfl⟩

theorem Inv.change {w : Disk Dir Result} (h : w.Inv A) {path : Path Dir}
    {listing : List (String × String)} {parents : List Dir}
    (hallowed : w.Allowed A (.change path listing parents)) :
    Inv A { w with
      files := changed w.files path listing parents
      unreported := path :: w.unreported } := by
  refine ⟨h.coherent, fun key b hb => ?_⟩
  obtain ⟨texts, files, hresult, hfiles, hbuffers⟩ := h.fresh key b hb
  refine ⟨texts, files, hresult, fun d hd => ?_, hbuffers⟩
  by_cases hsame : (changed w.files path listing parents).lookup d = w.files.lookup d
  · rw [hsame]
    refine (hfiles d hd).imp_right ?_
    rintro ⟨hmodule, p, hp, hpd⟩
    exact ⟨hmodule, p, List.mem_cons_of_mem _ hp, hpd⟩
  · obtain ⟨rfl, hmodule⟩ := hallowed key b hb d hd hsame
    exact .inr ⟨hmodule, path, List.mem_cons_self, rfl⟩

variable [LE Dir] [DecidableLE Dir]

theorem Inv.step {w w' : Disk Dir Result} {a : Action Dir} (h : w.Inv A) (hallowed : w.Allowed A a)
    (hstep : w.step A a = some w') : w'.Inv A := by
  cases a with
  | «open» path text =>
    cases hstep
    exact h.invalidate path (fun _ => lookup_insert_other text) (.refl _)
  | update path text =>
    cases hstep
    exact h.invalidate path (fun _ => lookup_insert_other text) (.refl _)
  | close path =>
    cases hstep
    exact h.invalidate path (fun _ hp => AList.lookup_erase_ne hp)
      (DocumentStore.evicts_evictUnreferencedBundles _)
  | invalidateExternal path =>
    cases hstep
    exact h.invalidateExternal path
  | ensureAnalysed path =>
    obtain ⟨key, s, hs, hensures⟩ :=
      DocumentStore.ensures_ensureAnalysed h.coherent hallowed w.files path
    rw [Disk.step, hs] at hstep
    split at hstep
    · cases hstep
      exact h.ensureAnalysed hensures
    · cases hstep
  | change path listing parents =>
    cases hstep
    exact h.change hallowed

/-- In all runs under the condition the index is exact, the bundles are not too many, and the
    bundle that `ensure_analysed` gives is cached, covers the directory if a fresh analysis of it
    does, and has the result that a fresh analysis of its root has now. -/
theorem ensureAnalysed_coherent (A : Analyser Dir Result Diagnostic) (files : Files Dir)
    (w : Disk Dir Result) (h : Reaches (Disk.step A) (Allowed A) { files } w) :
    (∀ dir key, key ∈ (w.store.bundleOfDir.lookup dir).getD [] ↔
      ∃ b, w.store.moduleResults.lookup key = some b ∧ dir ∈ A.modules b.result) ∧
    (∀ dir, w.store.bundleOfDir.lookup dir ≠ some []) ∧
    w.store.moduleResults.entries.length ≤ maxCachedModules ∧
    ∀ path, w.unreported = [] → w.store.accessClock + 1 < 2 ^ 64 →
      ∃ key s b, w.store.ensureAnalysed A w.files path = some (key, s) ∧
        s.moduleResults.lookup key = some b ∧
        (path.dir ∈ A.modules (A.analyse path.dir w.store.openTexts w.files) →
          path.dir ∈ A.modules b.result) ∧
        b.result = A.analyse key w.store.openTexts w.files := by
  have hinv : w.Inv A := h.invariant (inv_init files) fun _ _ _ h hok hstep => h.step hok hstep
  refine ⟨hinv.coherent.index, hinv.coherent.occupied, hinv.coherent.bounded, ?_⟩
  intro path hreported hclock
  obtain ⟨key, s, hs, hensures⟩ :=
    DocumentStore.ensures_ensureAnalysed hinv.coherent hclock w.files path
  obtain ⟨b, hb, hcovers⟩ := hensures.cached
  refine ⟨key, s, b, hs, hb, fun hd => ?_, ?_⟩
  · obtain hcovers | ⟨rfl, hresult⟩ := hcovers
    · exact hcovers
    · rwa [hresult]
  · obtain ⟨texts, files', hresult, hfiles, hbuffers⟩ := (hinv.ensureAnalysed hensures).fresh key b hb
    rw [hresult]
    refine (A.confined _ _ _ _ _ (fun d hd => ?_) fun p hp => ?_).symm
    · obtain hsame | ⟨_, p, hp, _⟩ := hfiles d (hresult ▸ hd)
      · exact hsame
      · rw [hreported] at hp
        cases hp
    · rw [← hensures.openTexts]
      exact hbuffers p (hresult ▸ hp)

end Disk

/-! ## A module that is created too late -/

namespace LateModule

/-- The parser, on the text `import lib` of this disk. -/
def importsOf (text : String) : List Import :=
  if text = "import lib" then [{ components := ["lib"] }] else []

def analyser : Analyser DirPath Program String := resolver importsOf {} fun _ => ∅

def main : Path DirPath := ⟨["app"], "main.mir"⟩

def lib : Path DirPath := ⟨["app", "lib"], "lib.mir"⟩

/-- `app` imports `lib`, which does not exist. -/
def before : Files DirPath := AList.singleton ["app"] [("main.mir", "import lib")]

/-- The directory `app/lib` with a file. -/
def after : Files DirPath := Disk.changed before lib [("lib.mir", "")] [["app"]]

/-- The result of the analysis without `lib`. -/
def unresolved : Program where
  modules := [(["app"], [("main.mir", "import lib")])]
  moduleImports := [(["app"], { components := ["lib"] }, none)]
  lookedUp := [["app"], ["app", "lib"], ["app", "lib"]]

theorem analyse_before : analyser.analyse ["app"] ∅ before = unresolved := by
  change Resolver.resolve importsOf ∅ before {} ["app"] = _
  have himports : Resolver.findImports importsOf ["app"]
      (Resolver.loadAndParse ∅ before ["app"]) = [(["app"], { components := ["lib"] })] := by decide
  have hfound : Resolver.resolveImportPath before ["app"] { components := ["lib"] }
      (Resolver.usableRoots before {} ["app"]) = (none, [["app", "lib"], ["app", "lib"]]) := by
    decide
  rw [Resolver.resolve, if_pos (by decide), himports, Resolver.visit]
  split
  · rw [Resolver.visit, hfound]
    rfl
  · rename_i h
    rw [hfound] at h
    cases h

theorem lib_mem_analyse_after :
    ["app", "lib"] ∈ analyser.modules (analyser.analyse ["app"] ∅ after) := by
  change _ ∈ (Resolver.resolve importsOf ∅ after {} ["app"]).loaded
  have himports : Resolver.findImports importsOf ["app"]
      (Resolver.loadAndParse ∅ after ["app"]) = [(["app"], { components := ["lib"] })] := by decide
  have hfound : (Resolver.resolveImportPath after ["app"] { components := ["lib"] }
      (Resolver.usableRoots after {} ["app"])).1 = some ["app", "lib"] := by decide
  rw [Resolver.resolve, if_pos (by decide), himports, Resolver.visit]
  split
  · rename_i h
    rw [hfound] at h
    cases h
  · rename_i h
    rw [hfound] at h
    cases h
    rw [dif_neg (by decide)]
    exact (Resolver.visit_mono _ _ _ _ _ _).2 (by decide)

/-- The store with the bundle of `app`. -/
def cached (lastAccess : Nat) : DocumentStore DirPath Program where
  moduleResults := AList.singleton ["app"] ⟨unresolved, lastAccess⟩
  bundleOfDir := AList.singleton ["app"] [["app"]]
  accessClock := lastAccess

theorem ensureAnalysed_before :
    DocumentStore.ensureAnalysed analyser before main {} = some (["app"], cached 1) := by
  change some (["app"], DocumentStore.analyseDir analyser before ["app"] {}) = _
  rw [DocumentStore.analyseDir_eq, analyse_before]
  rfl

theorem step_ensureAnalysed : Disk.step analyser { files := before } (.ensureAnalysed main) =
    some ⟨cached 1, before, []⟩ := by
  rw [Disk.step, ensureAnalysed_before]
  rfl

end LateModule

theorem ensureAnalysed_coherent_unresolved :
    ∃ key s b, DocumentStore.ensureAnalysed LateModule.analyser LateModule.before LateModule.main
        (LateModule.cached 1) = some (key, s) ∧
      s.moduleResults.lookup key = some b ∧
      b.result = LateModule.analyser.analyse key ∅ LateModule.before := by
  have hclock : Disk.Allowed LateModule.analyser { files := LateModule.before }
      (.ensureAnalysed LateModule.main) := by
    change 0 + 1 < 2 ^ 64
    decide
  have hreaches : Reaches (Disk.step LateModule.analyser) (Disk.Allowed LateModule.analyser)
      { files := LateModule.before } ⟨LateModule.cached 1, LateModule.before, []⟩ :=
    .next .start hclock LateModule.step_ensureAnalysed
  obtain ⟨key, s, b, hs, hb, _, hresult⟩ := (Disk.ensureAnalysed_coherent LateModule.analyser
    LateModule.before _ hreaches).2.2.2 LateModule.main rfl (by decide)
  exact ⟨key, s, b, hs, hb, hresult⟩

/-- A module that is created, and reported, after an analysis missed it: the store gives a result
    without it. -/
theorem missing_module_stale :
    ∃ w, Reaches (Disk.step LateModule.analyser) (fun _ _ => True) { files := LateModule.before } w ∧
      w.unreported = [] ∧
      ∃ key s b, w.store.ensureAnalysed LateModule.analyser w.files LateModule.main = some (key, s) ∧
        s.moduleResults.lookup key = some b ∧
        b.result ≠ LateModule.analyser.analyse key w.store.openTexts w.files := by
  refine ⟨⟨LateModule.cached 1, LateModule.after, []⟩, ?_, rfl, ["app"], LateModule.cached 2,
    ⟨LateModule.unresolved, 2⟩, rfl, rfl, fun h => ?_⟩
  · have hchange : Reaches (Disk.step LateModule.analyser) (fun _ _ => True)
        { files := LateModule.before } ⟨LateModule.cached 1, LateModule.after, [LateModule.lib]⟩ :=
      .next (a := .change LateModule.lib [("lib.mir", "")] [["app"]])
        (.next .start trivial LateModule.step_ensureAnalysed) trivial rfl
    exact hchange.next trivial (a := .invalidateExternal LateModule.lib) rfl
  · have hmem := LateModule.lib_mem_analyse_after
    rw [← show _ = LateModule.analyser.analyse ["app"] ∅ LateModule.after from h] at hmem
    exact absurd hmem (by decide)

end Mirage.Lsp
