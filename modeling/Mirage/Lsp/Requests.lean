import Mirage.Lsp.Server

/-!
# Requests of the language server

What the two threads do to the requests is seen on a `Ledger`: the jobs that have not been
answered in the order in which they will be, from the worker through the queue to the main
thread, the responses to each request, and the table of the requests in flight. Every step of
a thread is a step of the ledger or does not show there (`step_ledger`), and the invariants are
those of the ledger.

A request is answered once, and computed after the documents that were received before it, in
*every* run. The table in flight is another matter: the main thread removes a request from
it, by its id, some time after the response was sent. When the client reuses the id in between,
the new request goes; `Server.Allowed` excludes this.

* `requests_answered`: the responses, the order, and the table of the requests in flight;
* `reused_id_lost`: the reuse of an id that was answered.
-/

namespace Mirage.Lsp

theorem JsonIds.dump_inj {Id : Type} (J : JsonIds Id) {id id' : Id} :
    J.dump id = J.dump id' ↔ id = id' := by
  refine ⟨fun h => ?_, congrArg _⟩
  have := J.parse_dump id
  rw [h, J.parse_dump] at this
  exact (Option.some.inj this).symm

/-- What can be seen of the requests. -/
structure Ledger (Id Doc Query : Type) where
  /-- The documents to be applied and the requests to be answered, in order. -/
  jobs : List (Job Id Doc Query)
  /-- The request the main thread is about to push. -/
  offered : Option (Request Id Doc Query)
  /-- The request the worker has answered and is about to report. -/
  reporting : Option (Request Id Doc Query)
  /-- The number of responses to each request. -/
  responses : Nat → Nat
  next : Nat
  accepted : List Nat
  received : List Doc
  applied : List Doc
  computedAfter : List (Request Id Doc Query × List Doc)
  inFlight : AList fun _ : String => Nat
  completed : List String

namespace Ledger

variable {Id Doc Query : Type} (J : JsonIds Id)

/-- One more response to a request. -/
def respond (responses : Nat → Nat) (serial : Nat) : Nat → Nat :=
  fun n => responses n + if n = serial then 1 else 0

/-- The steps. With `c`, the id of a new request is not in flight. -/
inductive Step (c : Prop) : Ledger Id Doc Query → Ledger Id Doc Query → Prop
  | receive {l : Ledger Id Doc Query} (doc : Doc) (h : l.offered = none) :
    Step c l { l with jobs := l.jobs ++ [.document doc], received := l.received ++ [doc] }
  | answerNow (l : Ledger Id Doc Query) :
    Step c l { l with next := l.next + 1, responses := respond l.responses l.next }
  | enqueue {l : Ledger Id Doc Query} (id : Id) (query : Query) (h : l.offered = none)
    (hid : c → id ≠ J.null → J.dump id ∉ l.inFlight) :
    Step c l { l with
      jobs := l.jobs ++ [.request ⟨l.next, id, query, l.received⟩]
      offered := some ⟨l.next, id, query, l.received⟩
      next := l.next + 1
      inFlight := l.inFlight.insert (J.dump id) l.next }
  | refuse {l : Ledger Id Doc Query} {jobs : List (Job Id Doc Query)} (r : Request Id Doc Query)
    (h : l.offered = some r) (hjobs : l.jobs = jobs ++ [.request r]) :
    Step c l { l with
      jobs
      offered := none
      responses := respond l.responses r.serial
      inFlight := l.inFlight.erase (J.dump r.id) }
  | accept {l : Ledger Id Doc Query} (r : Request Id Doc Query) (h : l.offered = some r) :
    Step c l { l with offered := none, accepted := l.accepted ++ [r.serial] }
  | drain (l : Ledger Id Doc Query) :
    Step c l { l with
      inFlight := l.completed.foldl (fun t key => t.erase key) l.inFlight
      completed := [] }
  | run {l : Ledger Id Doc Query} {jobs : List (Job Id Doc Query)} (doc : Doc)
    (hjobs : l.jobs = .document doc :: jobs) :
    Step c l { l with jobs, applied := l.applied ++ [doc] }
  | compute {l : Ledger Id Doc Query} {jobs : List (Job Id Doc Query)} (r : Request Id Doc Query)
    (hjobs : l.jobs = .request r :: jobs) :
    Step c l { l with computedAfter := l.computedAfter ++ [(r, l.applied)] }
  | answer {l : Ledger Id Doc Query} {jobs : List (Job Id Doc Query)} (r : Request Id Doc Query)
    (hjobs : l.jobs = .request r :: jobs) (h : l.reporting = none) :
    Step c l { l with
      jobs
      responses := respond l.responses r.serial
      reporting := some r }
  | report {l : Ledger Id Doc Query} (r : Request Id Doc Query) (h : l.reporting = some r) :
    Step c l { l with reporting := none, completed := l.completed ++ [J.dump r.id] }

end Ledger

/-! ## The ledger of a state -/

def Job.request? {Id Doc Query : Type} : Job Id Doc Query → Option (Request Id Doc Query)
  | .document _ => none
  | .request r => some r

section

variable {Id Doc Query : Type} {jobs : List (Job Id Doc Query)}

@[simp] theorem filterMap_document (doc : Doc) :
    (Job.document doc :: jobs).filterMap Job.request? = jobs.filterMap Job.request? := rfl

@[simp] theorem filterMap_request (r : Request Id Doc Query) :
    (Job.request r :: jobs).filterMap Job.request? = r :: jobs.filterMap Job.request? := rfl

end

/-- The job the main thread has. -/
def MainPoint.job {Id Doc Query : Type} : MainPoint Id Doc Query → Option (Job Id Doc Query)
  | .offer r | .reject r => some (.request r)
  | .push job => some job
  | .drain | .read | .exited => none

/-- The job the worker has not finished. -/
def WorkerPoint.job {Id Doc Query Answer : Type} :
    WorkerPoint Id Doc Query Answer → Option (Job Id Doc Query)
  | .popped job | .stopped job | .terminated job => job
  | .check job => some job
  | .runDocument doc => some (.document doc)
  | .skip r | .start r | .compute r | .computed r _ | .respondCancelled r | .respond r _
  | .failed r _ => some (.request r)
  | .loop | .sweep | .pop | .markDone _ => none

/-- The request the worker is about to report. -/
def WorkerPoint.reporting {Id Doc Query Answer : Type} :
    WorkerPoint Id Doc Query Answer → Option (Request Id Doc Query)
  | .markDone r => some r
  | .loop | .sweep | .pop | .popped _ | .check _ | .runDocument _ | .skip _ | .start _ | .compute _
  | .computed _ _ | .respondCancelled _ | .respond _ _ | .failed _ _ | .stopped _
  | .terminated _ => none

/-- The id of the request that is read. -/
def ServerAction.requestId? {Id Doc Query Answer : Type} :
    ServerAction Id Doc Query Answer → Option Id
  | .main (some (.request id _)) => some id
  | _ => none

namespace Server

variable {Id Doc Query Answer : Type}

def jobs (s : Server Id Doc Query Answer) : List (Job Id Doc Query) :=
  s.worker.job.toList ++ s.queue ++ s.main.job.toList


/-- The number of responses to a request. -/
def responses (sent : List (Response Id Answer)) (n : Nat) : Nat :=
  sent.countP fun m => m.serial = some n

def ledger (s : Server Id Doc Query Answer) : Ledger Id Doc Query where
  jobs := s.jobs
  offered := s.main.job.bind Job.request?
  reporting := s.worker.reporting
  responses := responses s.sent
  next := s.next
  accepted := s.accepted
  received := s.received
  applied := s.applied
  computedAfter := s.computedAfter
  inFlight := s.inFlight
  completed := s.completed

/-- The id of a request that is read is not in flight. -/
def Allowed (J : JsonIds Id) (s : Server Id Doc Query Answer)
    (a : ServerAction Id Doc Query Answer) : Prop :=
  ∀ id ∈ a.requestId?, id ≠ J.null → J.dump id ∉ s.inFlight

@[simp] theorem responses_append_none (sent : List (Response Id Answer)) (id : Id)
    (r : Reply Answer) : responses (sent ++ [⟨id, r, none⟩]) = responses sent := by
  funext n
  simp [responses]

@[simp] theorem responses_append_some (sent : List (Response Id Answer)) (id : Id)
    (r : Reply Answer) (k : Nat) :
    responses (sent ++ [⟨id, r, some k⟩]) = Ledger.respond (responses sent) k := by
  funext n
  by_cases h : n = k
  · simp [responses, Ledger.respond, h]
  · simp [responses, Ledger.respond, h, Ne.symm h]

@[simp] theorem ledger_reply_none (s : Server Id Doc Query Answer) (id : Id) (r : Reply Answer) :
    (s.reply id r).ledger = s.ledger := by
  rw [ledger, reply, responses_append_none]
  rfl

end Server

/-! ## Invariants of the ledger -/

namespace Ledger

variable {Id Doc Query : Type} {J : JsonIds Id} {c : Prop} {l l' : Ledger Id Doc Query}

/-- The requests that have no response yet. -/
def requests (l : Ledger Id Doc Query) : List (Request Id Doc Query) :=
  l.jobs.filterMap Job.request?

/-- The jobs come in the order in which they were received: from the documents that were applied
    before the first of them to all that were received. -/
def Ordered (received : List Doc) : List Doc → List (Job Id Doc Query) → Prop
  | docs, [] => docs = received
  | docs, .document doc :: jobs => Ordered received (docs ++ [doc]) jobs
  | docs, .request r :: jobs => r.before = docs ∧ Ordered received docs jobs

theorem Ordered.receive {received docs : List Doc} {jobs : List (Job Id Doc Query)}
    (h : Ordered received docs jobs) (doc : Doc) :
    Ordered (received ++ [doc]) docs (jobs ++ [.document doc]) := by
  induction jobs generalizing docs with
  | nil => exact congrArg (· ++ [doc]) h
  | cons job jobs ih =>
    cases job with
    | document => exact ih h
    | request => exact ⟨h.1, ih h.2⟩

theorem ordered_append_request {received docs : List Doc} {jobs : List (Job Id Doc Query)}
    {r : Request Id Doc Query} : Ordered received docs (jobs ++ [.request r]) ↔
      Ordered received docs jobs ∧ r.before = received := by
  induction jobs generalizing docs with
  | nil =>
    constructor
    · rintro ⟨hbefore, hdocs⟩
      exact ⟨hdocs, hbefore.trans hdocs⟩
    · rintro ⟨hdocs, hbefore⟩
      exact ⟨hbefore.trans hdocs.symm, hdocs⟩
  | cons job jobs ih =>
    cases job with
    | document => exact ih
    | request => exact (and_congr_right fun _ => ih).trans and_assoc.symm

/-- Every request is answered once, and computed in its place. -/
structure Inv (l : Ledger Id Doc Query) : Prop where
  counts : ∀ n, l.responses n + l.requests.countP (fun r => r.serial = n) =
    if n < l.next then 1 else 0
  ordered : Ordered l.received l.applied l.jobs
  computed : ∀ x ∈ l.computedAfter, x.2 = x.1.before
  accepted : ∀ n ∈ l.accepted, n < l.next
  offered : ∀ r, l.offered = some r → r.serial < l.next ∧ r.serial ∉ l.accepted

/-- A response is sent for a request, wherever it is among the jobs. -/
theorem counts_answer {pre post : List (Job Id Doc Query)} {r : Request Id Doc Query}
    (hjobs : l.jobs = pre ++ .request r :: post) (responses : Nat → Nat) (n : Nat) :
    respond responses r.serial n + (List.filterMap Job.request? (pre ++ post)).countP
        (fun r => r.serial = n) =
      responses n + l.requests.countP (fun r => r.serial = n) := by
  rw [requests, hjobs]
  by_cases h : n = r.serial
  · simp [respond, h]
    omega
  · simp [respond, h, Ne.symm h]

theorem Inv.step (h : l.Inv) (hstep : Step J c l l') : l'.Inv := by
  cases hstep with
  | receive doc _ =>
    refine ⟨fun n => ?_, h.ordered.receive doc, h.computed, h.accepted, h.offered⟩
    simpa [requests] using h.counts n
  | answerNow =>
    refine ⟨fun n => ?_, h.ordered, h.computed, fun n hn => Nat.lt_succ_of_lt (h.accepted n hn),
      fun r hr => ⟨Nat.lt_succ_of_lt (h.offered r hr).1, (h.offered r hr).2⟩⟩
    have := h.counts n
    change respond l.responses l.next n + l.requests.countP _ = if n < l.next + 1 then 1 else 0
    rw [respond]
    split_ifs at this ⊢ <;> omega
  | enqueue id query hoffered _ =>
    refine ⟨fun n => ?_, ordered_append_request.2 ⟨h.ordered, rfl⟩, h.computed,
      fun n hn => Nat.lt_succ_of_lt (h.accepted n hn), ?_⟩
    · have := h.counts n
      simp only [requests, List.filterMap_append, List.countP_append, filterMap_request,
        List.filterMap_nil, List.countP_cons, List.countP_nil, decide_eq_true_eq] at this ⊢
      split_ifs at this ⊢ <;> omega
    · intro r hr
      cases hr
      exact ⟨Nat.lt_succ_self _, fun hmem => Nat.lt_irrefl _ (h.accepted _ hmem)⟩
  | refuse r hoffered hjobs =>
    refine ⟨fun n => ?_, ?_, h.computed, h.accepted, nofun⟩
    · rw [← h.counts n, ← counts_answer hjobs l.responses n, List.append_nil]
      rfl
    · have := h.ordered
      rw [hjobs] at this
      exact (ordered_append_request.1 this).1
  | accept r hoffered =>
    refine ⟨h.counts, h.ordered, h.computed, fun n hn => ?_, nofun⟩
    obtain hn | hn := List.mem_append.1 hn
    · exact h.accepted n hn
    · obtain rfl := List.mem_singleton.1 hn
      exact (h.offered r hoffered).1
  | drain => exact ⟨h.counts, h.ordered, h.computed, h.accepted, h.offered⟩
  | run doc hjobs =>
    have hordered := h.ordered
    rw [hjobs] at hordered
    refine ⟨fun n => ?_, hordered, h.computed, h.accepted, h.offered⟩
    simpa [requests, hjobs] using h.counts n
  | compute r hjobs =>
    refine ⟨h.counts, h.ordered, fun x hx => ?_, h.accepted, h.offered⟩
    obtain hx | hx := List.mem_append.1 hx
    · exact h.computed x hx
    · obtain rfl := List.mem_singleton.1 hx
      have hordered := h.ordered
      rw [hjobs] at hordered
      exact hordered.1.symm
  | answer r hjobs _ =>
    have hordered := h.ordered
    rw [hjobs] at hordered
    refine ⟨fun n => ?_, hordered.2, h.computed, h.accepted, h.offered⟩
    have hcounts := counts_answer (show l.jobs = [] ++ .request r :: _ from hjobs) l.responses n
    exact hcounts.trans (h.counts n)
  | report r _ => exact ⟨h.counts, h.ordered, h.computed, h.accepted, h.offered⟩

/-! The table of the requests in flight. -/

/-- The texts of the ids of the requests that have no response. -/
def openKeys (J : JsonIds Id) (l : Ledger Id Doc Query) : List String :=
  l.requests.map fun r => J.dump r.id

/-- The texts of the ids that are reported, or about to be. -/
def reportedKeys (J : JsonIds Id) (l : Ledger Id Doc Query) : List String :=
  (l.reporting.toList.map fun r => J.dump r.id) ++ l.completed

/-- The keys, but for that of messages without an id. -/
def keys (J : JsonIds Id) (l : Ledger Id Doc Query) : List String :=
  (l.openKeys J ++ l.reportedKeys J).filter (· ≠ J.dump J.null)

/-- The table has every request without a response, and no key comes twice. -/
structure Tracks (J : JsonIds Id) (l : Ledger Id Doc Query) : Prop where
  nodup : (l.keys J).Nodup
  inFlight : ∀ r ∈ l.requests, r.id ≠ J.null → l.inFlight.lookup (J.dump r.id) = some r.serial
  reported : ∀ key ∈ l.reportedKeys J, key ≠ J.dump J.null → key ∈ l.inFlight

theorem mem_inFlight_of_lookup {t : AList fun _ : String => Nat} {key : String} {n : Nat}
    (h : t.lookup key = some n) : key ∈ t := AList.lookup_isSome.1 (h ▸ rfl)

theorem Tracks.mem_inFlight (h : l.Tracks J) {key : String} (hkey : key ∈ l.keys J) :
    key ∈ l.inFlight := by
  obtain ⟨hkey, hnull⟩ := List.mem_filter.1 hkey
  have hnull := of_decide_eq_true hnull
  obtain hkey | hkey := List.mem_append.1 hkey
  · obtain ⟨r, hr, rfl⟩ := List.mem_map.1 hkey
    exact mem_inFlight_of_lookup (h.inFlight r hr fun heq => hnull (heq ▸ rfl))
  · exact h.reported key hkey hnull

/-- The keys that are reported are not those of requests without a response. -/
theorem Tracks.not_reported (h : l.Tracks J) {r : Request Id Doc Query} (hr : r ∈ l.requests)
    (hid : r.id ≠ J.null) : J.dump r.id ∉ l.reportedKeys J := by
  intro hmem
  have hnull : decide (J.dump r.id ≠ J.dump J.null) = true :=
    decide_eq_true (mt J.dump_inj.1 hid)
  have hnodup := h.nodup
  rw [keys, List.filter_append] at hnodup
  refine List.disjoint_of_nodup_append hnodup (a := J.dump r.id) ?_ ?_
  · exact List.mem_filter.2 ⟨List.mem_map.2 ⟨r, hr, rfl⟩, hnull⟩
  · exact List.mem_filter.2 ⟨hmem, hnull⟩

/-- A ledger with the same requests and the same table. -/
theorem Tracks.congr (h : l.Tracks J) (hrequests : l'.requests = l.requests)
    (hreporting : l'.reporting = l.reporting) (hcompleted : l'.completed = l.completed)
    (hinFlight : l'.inFlight = l.inFlight) : l'.Tracks J := by
  have hreported : l'.reportedKeys J = l.reportedKeys J := by
    rw [reportedKeys, reportedKeys, hreporting, hcompleted]
  refine ⟨?_, ?_, ?_⟩
  · rw [keys, openKeys, hrequests, hreported]
    exact h.nodup
  · rw [hrequests, hinFlight]
    exact h.inFlight
  · rw [hreported, hinFlight]
    exact h.reported

theorem lookup_foldl_erase {t : AList fun _ : String => Nat} {keys : List String} {key : String}
    (h : key ∉ keys) : (keys.foldl (fun t k => t.erase k) t).lookup key = t.lookup key := by
  induction keys generalizing t with
  | nil => rfl
  | cons k keys ih =>
    rw [List.foldl_cons, ih (List.not_mem_of_not_mem_cons h),
      AList.lookup_erase_ne (List.ne_of_not_mem_cons h)]

theorem mem_foldl_erase {t : AList fun _ : String => Nat} {keys : List String} {key : String}
    (h : key ∉ keys) : key ∈ keys.foldl (fun t k => t.erase k) t ↔ key ∈ t := by
  rw [← AList.lookup_isSome, ← AList.lookup_isSome, lookup_foldl_erase h]

/-- A new request whose id is not in flight. -/
theorem Tracks.enqueue (h : l.Tracks J) {id : Id} {query : Query}
    (hid : id ≠ J.null → J.dump id ∉ l.inFlight) :
    Tracks J { l with
      jobs := l.jobs ++ [.request ⟨l.next, id, query, l.received⟩]
      offered := some ⟨l.next, id, query, l.received⟩
      next := l.next + 1
      inFlight := l.inFlight.insert (J.dump id) l.next } := by
  -- no other key is that of the new request, unless it has no id
  have hother : ∀ key, key ≠ J.dump J.null → key ∈ l.inFlight → key ≠ J.dump id := by
    rintro key hnull hkey rfl
    exact hid (fun heq => hnull (heq ▸ rfl)) hkey
  refine ⟨?_, ?_, ?_⟩
  · have hperm : ((l.openKeys J ++ [J.dump id]) ++ l.reportedKeys J).Perm
        (J.dump id :: (l.openKeys J ++ l.reportedKeys J)) := by
      rw [List.append_assoc]
      exact List.perm_middle
    have hkeys : keys J { l with
        jobs := l.jobs ++ [.request ⟨l.next, id, query, l.received⟩]
        offered := some ⟨l.next, id, query, l.received⟩
        next := l.next + 1
        inFlight := l.inFlight.insert (J.dump id) l.next } =
        ((l.openKeys J ++ [J.dump id]) ++ l.reportedKeys J).filter (· ≠ J.dump J.null) := by
      simp [keys, openKeys, requests, reportedKeys]
    rw [hkeys, (hperm.filter _).nodup_iff, List.filter_cons]
    split
    · rename_i hnull
      refine List.nodup_cons.2 ⟨fun hmem => ?_, h.nodup⟩
      exact hother _ (of_decide_eq_true hnull) (h.mem_inFlight hmem) rfl
    · exact h.nodup
  · intro r hr hnull
    obtain hr | hr : r ∈ l.requests ∨ r = ⟨l.next, id, query, l.received⟩ := by
      simpa [requests] using hr
    · have hlookup := h.inFlight r hr hnull
      rw [AList.lookup_insert_ne (hother _ (mt J.dump_inj.1 hnull) (mem_inFlight_of_lookup hlookup))]
      exact hlookup
    · subst hr
      exact AList.lookup_insert _
  · intro key hkey hnull
    exact (AList.mem_insert _).2 (.inr (h.reported key hkey hnull))

/-- The last request is refused. -/
theorem Tracks.refuse (h : l.Tracks J) {jobs : List (Job Id Doc Query)}
    {r : Request Id Doc Query} (hjobs : l.jobs = jobs ++ [.request r]) (responses : Nat → Nat) :
    Tracks J { l with
      jobs
      offered := none
      responses
      inFlight := l.inFlight.erase (J.dump r.id) } := by
  have hrequests : l.requests = jobs.filterMap Job.request? ++ [r] := by
    simp [requests, hjobs]
  have hopen : l.openKeys J =
      (jobs.filterMap Job.request?).map (fun r => J.dump r.id) ++ [J.dump r.id] := by
    simp [openKeys, hrequests]
  have hperm : (l.openKeys J ++ l.reportedKeys J).Perm (J.dump r.id ::
      ((jobs.filterMap Job.request?).map (fun r => J.dump r.id) ++ l.reportedKeys J)) := by
    rw [hopen, List.append_assoc]
    exact List.perm_middle
  have hnodup := (hperm.filter _).nodup_iff.1 h.nodup
  -- the key of the request comes only once
  have hother : ∀ key, key ≠ J.dump J.null →
      key ∈ (jobs.filterMap Job.request?).map (fun r => J.dump r.id) ++ l.reportedKeys J →
      key ≠ J.dump r.id := by
    rintro key hnull hkey rfl
    rw [List.filter_cons, if_pos (decide_eq_true hnull)] at hnodup
    exact (List.nodup_cons.1 hnodup).1 (List.mem_filter.2 ⟨hkey, decide_eq_true hnull⟩)
  refine ⟨?_, ?_, ?_⟩
  · exact hnodup.sublist ((List.sublist_cons_self _ _).filter _)
  · intro r' hr' hnull
    have hkey : J.dump r'.id ∈ (jobs.filterMap Job.request?).map fun r => J.dump r.id :=
      List.mem_map.2 ⟨r', hr', rfl⟩
    rw [AList.lookup_erase_ne
      (hother _ (mt J.dump_inj.1 hnull) (List.mem_append_left _ hkey))]
    exact h.inFlight r' (hrequests ▸ List.mem_append_left _ hr') hnull
  · intro key hkey hnull
    exact AList.mem_erase.2
      ⟨hother key hnull (List.mem_append_right _ hkey), h.reported key hkey hnull⟩

/-- The completed requests leave the table. -/
theorem Tracks.drain (h : l.Tracks J) : Tracks J { l with
    inFlight := l.completed.foldl (fun t key => t.erase key) l.inFlight
    completed := [] } := by
  refine ⟨?_, ?_, ?_⟩
  · refine h.nodup.sublist ((List.Sublist.append_left ?_ _).filter _)
    exact List.Sublist.append_left (List.nil_sublist _) _
  · intro r hr hnull
    have hkey := h.not_reported hr hnull
    change (l.completed.foldl _ l.inFlight).lookup (J.dump r.id) = _
    rw [lookup_foldl_erase fun hmem => hkey (List.mem_append_right _ hmem)]
    exact h.inFlight r hr hnull
  · intro key hkey hnull
    have hkey : key ∈ l.reporting.toList.map fun r => J.dump r.id := by
      simpa [reportedKeys] using hkey
    have hcompleted : key ∉ l.completed := by
      intro hmem
      have hnodup := h.nodup
      rw [keys, reportedKeys, List.filter_append, List.filter_append] at hnodup
      exact List.disjoint_of_nodup_append (List.nodup_append.1 hnodup).2.1
        (List.mem_filter.2 ⟨hkey, decide_eq_true hnull⟩)
        (List.mem_filter.2 ⟨hmem, decide_eq_true hnull⟩)
    exact (mem_foldl_erase hcompleted).2
      (h.reported key (List.mem_append_left _ hkey) hnull)

/-- The first request is answered. -/
theorem Tracks.answer (h : l.Tracks J) {jobs : List (Job Id Doc Query)}
    {r : Request Id Doc Query} (hjobs : l.jobs = .request r :: jobs) (hreporting : l.reporting = none)
    (responses : Nat → Nat) :
    Tracks J { l with jobs, responses, reporting := some r } := by
  have hrequests : l.requests = r :: jobs.filterMap Job.request? := by
    rw [requests, hjobs, filterMap_request]
  have hreported : l.reportedKeys J = l.completed := by
    rw [reportedKeys, hreporting]
    rfl
  refine ⟨?_, fun r' hr' => h.inFlight r' (hrequests ▸ List.mem_cons_of_mem _ hr'), ?_⟩
  · have hperm : ((jobs.filterMap Job.request?).map (fun r => J.dump r.id) ++
        J.dump r.id :: l.completed).Perm (l.openKeys J ++ l.reportedKeys J) := by
      rw [openKeys, hrequests, hreported, List.map_cons]
      exact List.perm_middle
    exact (hperm.filter _).nodup_iff.2 h.nodup
  · intro key hkey hnull
    obtain rfl | hkey : key = J.dump r.id ∨ key ∈ l.completed := by
      simpa [reportedKeys] using hkey
    · exact mem_inFlight_of_lookup
        (h.inFlight r (hrequests ▸ List.mem_cons_self) fun heq => hnull (heq ▸ rfl))
    · exact h.reported key (hreported ▸ hkey) hnull

/-- The answered request is reported. -/
theorem Tracks.report (h : l.Tracks J) {r : Request Id Doc Query} (hr : l.reporting = some r) :
    Tracks J { l with reporting := none, completed := l.completed ++ [J.dump r.id] } := by
  have hperm : (l.completed ++ [J.dump r.id]).Perm (l.reportedKeys J) := by
    rw [reportedKeys, hr]
    exact List.perm_append_comm
  refine ⟨?_, h.inFlight, fun key hkey => h.reported key (hperm.mem_iff.1 hkey)⟩
  exact ((hperm.append_left _).filter _).nodup_iff.2 h.nodup

theorem Tracks.step (h : l.Tracks J) (hstep : Step J True l l') : l'.Tracks J := by
  cases hstep with
  | receive doc _ => exact h.congr (by simp [requests]) rfl rfl rfl
  | answerNow => exact h.congr rfl rfl rfl rfl
  | enqueue id query _ hid => exact h.enqueue (hid trivial)
  | refuse r _ hjobs => exact h.refuse hjobs _
  | accept r _ => exact h.congr rfl rfl rfl rfl
  | drain => exact h.drain
  | run doc hjobs => exact h.congr (by simp [requests, hjobs]) rfl rfl rfl
  | compute r hjobs => exact h.congr rfl rfl rfl rfl
  | answer r hjobs hreporting => exact h.answer hjobs hreporting _
  | report r hr => exact h.report hr

end Ledger

/-! ## The threads on the ledger -/

namespace Server

variable {Id Doc Query Answer : Type} [DecidableEq Id] {J : JsonIds Id} {c : Prop}
  {s s' : Server Id Doc Query Answer}

/-- What a step of a thread may do to the ledger. -/
def Moves (J : JsonIds Id) (c : Prop) (s s' : Server Id Doc Query Answer) : Prop :=
  s'.ledger = s.ledger ∨ Ledger.Step J c s.ledger s'.ledger

@[simp] theorem ledger_replyError (id : Id) (code : Int) (text : String) :
    (s.replyError J id code text).ledger = s.ledger := by
  rw [replyError]
  split
  · rfl
  · exact ledger_reply_none _ _ _

omit [DecidableEq Id] in
theorem ledger_reply_some (id : Id) (r : Reply Answer) (k : Nat) : (s.reply id r (some k)).ledger =
    { s.ledger with responses := Ledger.respond (responses s.sent) k } := by
  rw [ledger, reply, responses_append_some]
  rfl

omit [DecidableEq Id] in
/-- Where the main thread has no job, it is as good as at the start of its loop. -/
theorem ledger_setMain {m : MainPoint Id Doc Query} (h : s.main.job = none) (hm : m.job = none) :
    { s with main := m }.ledger = s.ledger := by
  simp [ledger, jobs, h, hm]

theorem moves_enqueueRequest (hmain : s.main = .drain) (id : Id)
    (hid : c → id ≠ J.null → J.dump id ∉ s.inFlight) (params : Params Query) :
    Moves J c s (s.enqueueRequest J id params) := by
  cases params with
  | unsupported =>
    refine .inr ?_
    rw [enqueueRequest, ledger_reply_some]
    exact .answerNow s.ledger
  | malformed text =>
    rw [enqueueRequest]
    split
    · exact .inl rfl
    · refine .inr ?_
      rw [ledger_reply_some]
      exact .answerNow s.ledger
  | query query =>
    refine .inr ?_
    have hoffered : s.ledger.offered = none := by
      simp [ledger, hmain, MainPoint.job]
    convert Ledger.Step.enqueue id query hoffered hid using 1
    simp [enqueueRequest, ledger, jobs, hmain, MainPoint.job, Job.request?]

theorem moves_dispatch (hmain : s.main = .drain) (m : Message Id Doc Query)
    (hid : ∀ id params, m = .request id params → c → id ≠ J.null → J.dump id ∉ s.inFlight) :
    Moves J c s (s.dispatch J m) := by
  cases m with
  | skipped | badMethod | initialized => exact .inl rfl
  | initializeRequest id =>
    rw [dispatch]
    split
    · exact .inl (ledger_reply_none _ _ _)
    · exact .inl (ledger_reply_none _ _ _)
  | shutdown id => exact .inl (ledger_reply_none _ _ _)
  | exit => exact .inl (ledger_setMain (hmain ▸ rfl) rfl)
  | cancelRequest id target =>
    rw [dispatch, cancelRequest]
    split
    · exact .inl rfl
    · exact .inl rfl
  | document id doc =>
    cases doc with
    | none => exact .inl rfl
    | some doc =>
      refine .inr ?_
      have hoffered : s.ledger.offered = none := by
        simp [ledger, hmain, MainPoint.job]
      convert Ledger.Step.receive doc hoffered using 1
      simp [dispatch, ledger, jobs, hmain, MainPoint.job, Job.request?]
  | request id params => exact moves_enqueueRequest hmain id (hid id params rfl) params
  | malformed id text => exact .inl (ledger_replyError _ _ _)
  | unhandled id method => exact .inl (ledger_replyError _ _ _)

theorem moves_handle (hmain : s.main.job = none) (m : Message Id Doc Query)
    (hid : c → s.Allowed J (.main (some m))) : Moves J c s (s.handle J m) := by
  have hstart := ledger_setMain (m := .drain) hmain rfl
  have hdispatch : Moves J c s ({ s with main := .drain }.dispatch J m) := by
    have h := moves_dispatch (J := J) (c := c) (s := { s with main := .drain }) rfl m ?_
    · rwa [Moves, hstart] at h
    · rintro id params rfl hc
      exact hid hc id rfl
  have hreply : ∀ id code text, Moves J c s ({ s with main := .drain }.replyError J id code text) :=
    fun _ _ _ => .inl ((ledger_replyError _ _ _).trans hstart)
  cases m with
  | skipped => exact .inl hstart
  | badMethod => exact hreply _ _ _
  | exit => exact hdispatch
  | initializeRequest =>
    rw [handle]
    dsimp only
    split
    · exact hreply _ _ _
    · exact hdispatch
  | initialized | shutdown | cancelRequest | document | request | malformed | unhandled =>
    rw [handle.eq_def]
    dsimp only
    split
    · exact hreply _ _ _
    · split
      · exact hreply _ _ _
      · exact hdispatch

theorem moves_mainStep {input : Option (Message Id Doc Query)}
    (hid : c → s.Allowed J (.main input)) (h : s.mainStep J input = some s') : Moves J c s s' := by
  rw [mainStep.eq_def] at h
  cases hmain : s.main with
  | drain =>
    rw [hmain] at h
    cases h
    refine .inr ?_
    convert Ledger.Step.drain s.ledger using 1
    simp [drain, ledger, jobs, hmain, MainPoint.job]
  | read =>
    rw [hmain] at h
    have hjob : s.main.job = none := by rw [hmain]; rfl
    cases input with
    | none =>
      cases h
      exact .inl (ledger_setMain hjob rfl)
    | some m =>
      cases h
      exact moves_handle hjob m hid
  | offer r =>
    rw [hmain] at h
    dsimp only at h
    split at h
    · cases h
      exact .inl (by simp [ledger, jobs, hmain, MainPoint.job])
    · cases h
      exact .inl (by simp [ledger, jobs, hmain, MainPoint.job])
  | reject r =>
    rw [hmain] at h
    cases h
    refine .inr ?_
    have hoffered : s.ledger.offered = some r := by
      simp [ledger, hmain, MainPoint.job, Job.request?]
    have hjobs : s.ledger.jobs = (s.worker.job.toList ++ s.queue) ++ [.request r] := by
      simp [ledger, jobs, hmain, MainPoint.job]
    rw [ledger_reply_some]
    convert Ledger.Step.refuse r hoffered hjobs using 1
    simp [ledger, jobs, MainPoint.job]
  | push job =>
    rw [hmain] at h
    cases h
    cases job with
    | document doc =>
      refine .inl ?_
      simp [ledger, jobs, hmain, MainPoint.job, Job.request?]
    | request r =>
      refine .inr ?_
      have hoffered : s.ledger.offered = some r := by
        simp [ledger, hmain, MainPoint.job, Job.request?]
      convert Ledger.Step.accept r hoffered using 1
      simp [ledger, jobs, hmain, MainPoint.job]
  | exited =>
    rw [hmain] at h
    cases h

omit [DecidableEq Id] in
/-- The worker passes on with the same job. -/
theorem ledger_setWorker {p p' : WorkerPoint Id Doc Query Answer} (h : s.worker = p)
    (hjob : p'.job = p.job) (hreporting : p'.reporting = p.reporting) :
    { s with worker := p' }.ledger = s.ledger := by
  simp [ledger, jobs, h, hjob, hreporting]

omit [DecidableEq Id] in
/-- The worker answers its request. -/
theorem moves_answer {r : Request Id Doc Query} (hjob : s.worker.job = some (.request r))
    (hreporting : s.worker.reporting = none)
    (hsent : s'.ledger = { s.ledger with
      jobs := s.queue ++ s.main.job.toList
      responses := Ledger.respond (responses s.sent) r.serial
      reporting := some r }) : Moves J c s s' := by
  refine .inr ?_
  have hjobs : s.ledger.jobs = .request r :: (s.queue ++ s.main.job.toList) := by
    simp [ledger, jobs, hjob]
  rw [hsent]
  exact .answer r hjobs hreporting

omit [DecidableEq Id] in
theorem moves_workerStep {sweepThrows : Bool} {outcome : Outcome Answer}
    (h : s.workerStep J sweepThrows outcome = some s') : Moves J c s s' := by
  rw [workerStep.eq_def] at h
  cases hworker : s.worker with
  | loop =>
    rw [hworker] at h
    cases h
    exact .inl (ledger_setWorker hworker (by split <;> rfl) (by split <;> rfl))
  | sweep =>
    rw [hworker] at h
    cases h
    exact .inl (ledger_setWorker hworker (by split <;> rfl) (by split <;> rfl))
  | pop =>
    rw [hworker] at h
    cases hqueue : s.queue with
    | nil =>
      rw [hqueue] at h
      cases h
      refine .inl ?_
      simp [ledger, jobs, hworker, hqueue, WorkerPoint.job, WorkerPoint.reporting]
    | cons job queue =>
      rw [hqueue] at h
      cases h
      refine .inl ?_
      simp [ledger, jobs, hworker, hqueue, WorkerPoint.job, WorkerPoint.reporting]
  | popped job =>
    rw [hworker] at h
    dsimp only at h
    split at h
    · cases h
      exact .inl (ledger_setWorker hworker rfl rfl)
    · cases job with
      | none =>
        cases h
        exact .inl (ledger_setWorker hworker rfl rfl)
      | some job =>
        cases h
        exact .inl (ledger_setWorker hworker rfl rfl)
  | check job =>
    rw [hworker] at h
    cases job with
    | document doc =>
      cases h
      exact .inl (ledger_setWorker hworker rfl rfl)
    | request r =>
      cases h
      exact .inl (ledger_setWorker hworker (by split <;> rfl) (by split <;> rfl))
  | runDocument doc =>
    rw [hworker] at h
    cases h
    refine .inr ?_
    have hjobs : s.ledger.jobs = .document doc :: (s.queue ++ s.main.job.toList) := by
      simp [ledger, jobs, hworker, WorkerPoint.job]
    convert Ledger.Step.run doc hjobs using 1
    simp [ledger, jobs, hworker, WorkerPoint.job, WorkerPoint.reporting]
  | skip r =>
    rw [hworker] at h
    cases h
    refine moves_answer (r := r) (by rw [hworker]; rfl) (by rw [hworker]; rfl) ?_
    simp [answerFailedTask, J.parse_dump, ledger, jobs, reply, WorkerPoint.job, WorkerPoint.reporting]
  | start r =>
    rw [hworker] at h
    cases h
    exact .inl (ledger_setWorker hworker (by split <;> rfl) (by split <;> rfl))
  | compute r =>
    rw [hworker] at h
    cases h
    refine .inr ?_
    have hjobs : s.ledger.jobs = .request r :: (s.queue ++ s.main.job.toList) := by
      simp [ledger, jobs, hworker, WorkerPoint.job]
    convert Ledger.Step.compute r hjobs using 1
    cases outcome <;> simp [ledger, jobs, hworker, WorkerPoint.job, WorkerPoint.reporting]
  | computed r answer =>
    rw [hworker] at h
    cases h
    exact .inl (ledger_setWorker hworker (by split <;> rfl) (by split <;> rfl))
  | respondCancelled r =>
    rw [hworker] at h
    cases h
    refine moves_answer (r := r) (by rw [hworker]; rfl) (by rw [hworker]; rfl) ?_
    simp [ledger, jobs, reply, WorkerPoint.job, WorkerPoint.reporting]
  | respond r answer =>
    rw [hworker] at h
    cases answer with
    | none =>
      cases h
      exact .inl (ledger_setWorker hworker rfl rfl)
    | some answer =>
      cases h
      refine moves_answer (r := r) (by rw [hworker]; rfl) (by rw [hworker]; rfl) ?_
      simp [ledger, jobs, reply, WorkerPoint.job, WorkerPoint.reporting]
  | failed r text =>
    rw [hworker] at h
    cases text with
    | none =>
      cases h
      exact .inl (ledger_setWorker hworker rfl rfl)
    | some text =>
      cases h
      refine moves_answer (r := r) (by rw [hworker]; rfl) (by rw [hworker]; rfl) ?_
      simp [answerFailedTask, J.parse_dump, ledger, jobs, reply, WorkerPoint.job, WorkerPoint.reporting]
  | markDone r =>
    rw [hworker] at h
    cases h
    refine .inr ?_
    have hreporting : s.ledger.reporting = some r := by
      simp [ledger, hworker, WorkerPoint.reporting]
    convert Ledger.Step.report r hreporting using 1
    simp [ledger, jobs, hworker, WorkerPoint.job, WorkerPoint.reporting]
  | stopped job =>
    rw [hworker] at h
    cases h
  | terminated job =>
    rw [hworker] at h
    cases h

theorem moves_step {a : ServerAction Id Doc Query Answer} (hid : c → s.Allowed J a)
    (h : s.step J a = some s') : Moves J c s s' := by
  cases a with
  | main input => exact moves_mainStep hid h
  | worker sweepThrows outcome => exact moves_workerStep h

/-! ## Runs -/

/-- The requests that were read and have no response yet. -/
def unanswered (s : Server Id Doc Query Answer) : List (Request Id Doc Query) :=
  s.jobs.filterMap Job.request?

/-- The worker waits for a task. -/
def WorkerIdle (s : Server Id Doc Query Answer) : Prop :=
  s.worker = .loop ∨ s.worker = .sweep ∨ s.worker = .pop ∨ s.worker = .popped none

theorem inv_of_reaches (h : Reaches (Server.step J) (fun _ _ => True) {} s) : s.ledger.Inv := by
  refine h.invariant (p := fun s => s.ledger.Inv) ?_ fun s a s' hs _ hstep => ?_
  · exact ⟨fun _ => rfl, rfl, nofun, nofun, nofun⟩
  · obtain heq | hmoves := moves_step (c := False) (fun h => h.elim) hstep
    · exact heq ▸ hs
    · exact hs.step hmoves

theorem tracks_of_reaches (h : Reaches (Server.step J) (Allowed J) {} s) : s.ledger.Tracks J := by
  refine h.invariant (p := fun s => s.ledger.Tracks J) ?_ fun s a s' hs hok hstep => ?_
  · exact ⟨List.nodup_nil, nofun, nofun⟩
  · obtain heq | hmoves := moves_step (c := True) (fun _ => hok) hstep
    · exact heq ▸ hs
    · exact hs.step hmoves

omit [DecidableEq Id] in
/-- The request of an idle worker and an empty queue is with the main thread. -/
theorem unanswered_of_idle (hqueue : s.queue = []) (hidle : s.WorkerIdle) :
    s.unanswered = (s.main.job.bind Job.request?).toList := by
  have hjob : s.worker.job = none := by
    obtain h | h | h | h := hidle <;> rw [h] <;> rfl
  rw [unanswered, jobs, hqueue, hjob]
  cases s.main.job with
  | none => rfl
  | some job => cases job <;> rfl

/-- A request is answered at most once, and exactly once when the queue is empty and the worker
    idle; it is computed after the documents that were received before it. In the runs that
    read no id that is in flight, the table has every request without a response, and a
    cancellation sets its flag and no other. -/
theorem requests_answered (J : JsonIds Id) (s : Server Id Doc Query Answer)
    (h : Reaches (Server.step J) (fun _ _ => True) {} s) :
    (∀ n, responses s.sent n ≤ 1) ∧
    (s.queue = [] → s.WorkerIdle → ∀ n ∈ s.accepted, responses s.sent n = 1) ∧
    (∀ x ∈ s.computedAfter, x.2 = x.1.before) ∧
    (Reaches (Server.step J) (Allowed J) {} s → ∀ r ∈ s.unanswered, r.id ≠ J.null →
      s.inFlight.lookup (J.dump r.id) = some r.serial ∧
      ∀ id s', s.main = .read → s.running = true → s.shutdownReceived = false →
        s.step J (.main (some (.cancelRequest id r.id))) = some s' →
        s'.cancelled r.serial = true ∧ ∀ n, n ≠ r.serial → s'.cancelled n = s.cancelled n) := by
  have hinv := inv_of_reaches h
  refine ⟨fun n => ?_, fun hqueue hidle n hn => ?_, hinv.computed, fun hallowed r hr hid => ?_⟩
  · have := hinv.counts n
    change responses s.sent n + _ = _ at this
    split at this <;> omega
  · have hcounts := hinv.counts n
    have hzero : s.ledger.requests.countP (fun r => r.serial = n) = 0 := by
      change s.unanswered.countP _ = 0
      rw [unanswered_of_idle hqueue hidle, List.countP_eq_zero]
      intro r hr heq
      have hoffered := hinv.offered r (Option.mem_toList.1 hr)
      exact hoffered.2 (of_decide_eq_true heq ▸ hn)
    rw [if_pos (hinv.accepted n hn), hzero] at hcounts
    exact hcounts
  · have hlookup := (tracks_of_reaches hallowed).inFlight r hr hid
    refine ⟨hlookup, fun id s' hmain hrunning hshutdown hstep => ?_⟩
    have hcancel : s' = { s with main := .drain }.cancelRequest J r.id := by
      rw [step, mainStep, hmain] at hstep
      simpa [handle, dispatch, hrunning, hshutdown] using hstep.symm
    rw [hcancel, cancelRequest, show AList.lookup _ s.inFlight = _ from hlookup]
    exact ⟨if_pos rfl, fun n hn => if_neg hn⟩

/-! ## An id that is used again -/

/-- The id of a request that is read is not that of a request without a response. -/
def SeparateLifetimes (s : Server Id Doc Query Answer) (a : ServerAction Id Doc Query Answer) :
    Prop := ∀ id ∈ a.requestId?, ∀ r ∈ s.unanswered, r.id ≠ id

instance (s : Server Id Doc Query Answer) (a : ServerAction Id Doc Query Answer) :
    Decidable (s.SeparateLifetimes a) :=
  inferInstanceAs (Decidable (∀ id ∈ a.requestId?, ∀ r ∈ s.unanswered, r.id ≠ id))

instance (s : Server Id Doc Query Answer) (a : ServerAction Id Doc Query Answer) :
    Decidable (s.Allowed J a) :=
  inferInstanceAs (Decidable (∀ id ∈ a.requestId?, id ≠ J.null → J.dump id ∉ s.inFlight))

end Server

namespace ReusedId

/-- The ids `null` and `7`. -/
def ids : JsonIds (Option Unit) where
  null := none
  dump
    | none => "null"
    | some _ => "7"
  parse text := if text = "null" then some none else if text = "7" then some (some ()) else none
  parse_dump
    | none => by decide
    | some () => by decide

/-- A step of the main thread that reads nothing. -/
def main : ServerAction (Option Unit) Unit Unit Unit := .main none

def read (m : Message (Option Unit) Unit Unit) : ServerAction (Option Unit) Unit Unit Unit :=
  .main (some m)

def worker : ServerAction (Option Unit) Unit Unit Unit := .worker false (.returns (some ()))

/-- A request is read and pushed; the main thread waits for the next message. -/
def request : List (ServerAction (Option Unit) Unit Unit Unit) :=
  [read (.request (some ()) (.query ())), main, main, main]

/-- The worker answers a request and reports it. -/
def answer : List (ServerAction (Option Unit) Unit Unit Unit) := List.replicate 10 worker

def start : List (ServerAction (Option Unit) Unit Unit Unit) :=
  [main, read (.initializeRequest none), main]

/-- The state after checked actions has a property. -/
def after (ok : Server (Option Unit) Unit Unit Unit → ServerAction (Option Unit) Unit Unit Unit →
      Bool) (actions : List (ServerAction (Option Unit) Unit Unit Unit))
    (p : Server (Option Unit) Unit Unit Unit → Bool) : Bool :=
  (takeActions (fun s a => if ok s a then s.step ids a else none) {} actions).any p

end ReusedId

theorem requests_answered_first :
    ∃ s : Server (Option Unit) Unit Unit Unit, Reaches (Server.step ReusedId.ids)
        (Server.Allowed ReusedId.ids) {} s ∧
      ∃ r ∈ s.unanswered, r.id ≠ none ∧ s.inFlight.lookup "7" = some r.serial := by
  have hrun : ReusedId.after (fun s a => s.Allowed ReusedId.ids a)
      (ReusedId.start ++ ReusedId.request) (fun s => s.unanswered.any (·.id = some ())) = true := by
    decide +kernel
  obtain ⟨s, hs, hunanswered⟩ := (Option.any_eq_true _ _).1 hrun
  obtain ⟨r, hr, hid⟩ := List.any_eq_true.1 hunanswered
  have hid : r.id = some () := of_decide_eq_true hid
  have hreaches : Reaches (Server.step ReusedId.ids) (Server.Allowed ReusedId.ids) {} s :=
    reaches_of_checked (by simpa using hs)
  have h := Server.requests_answered ReusedId.ids s (hreaches.mono fun _ _ _ => trivial)
  have hne : r.id ≠ none := hid ▸ nofun
  refine ⟨s, hreaches, r, hr, hne, ?_⟩
  rw [← (h.2.2.2 hreaches r hr hne).1, hid]
  rfl

/-- The id of a request that was answered is used for a new one before the main thread has
    removed it from the table: the new request is removed, and cannot be cancelled. -/
theorem reused_id_lost :
    ∃ s : Server (Option Unit) Unit Unit Unit, Reaches (Server.step ReusedId.ids)
        Server.SeparateLifetimes {} s ∧
      ∃ r ∈ s.unanswered, r.id ≠ ReusedId.ids.null ∧
        s.inFlight.lookup (ReusedId.ids.dump r.id) = none ∧
        ∃ s', s.step ReusedId.ids (ReusedId.read (.cancelRequest none r.id)) = some s' ∧
          s'.cancelled r.serial = false := by
  have hrun : ReusedId.after (fun s a => s.SeparateLifetimes a)
      (ReusedId.start ++ ReusedId.request ++ ReusedId.answer ++ ReusedId.request)
      (fun s => s.unanswered.any fun r => r.id ≠ ReusedId.ids.null ∧
        s.inFlight.lookup (ReusedId.ids.dump r.id) = none ∧
        (s.step ReusedId.ids (ReusedId.read (.cancelRequest none r.id))).any
          (fun s' => s'.cancelled r.serial = false)) = true := by
    decide +kernel
  obtain ⟨s, hs, hunanswered⟩ := (Option.any_eq_true _ _).1 hrun
  obtain ⟨r, hr, hlost⟩ := List.any_eq_true.1 hunanswered
  obtain ⟨hid, hlookup, hcancel⟩ := of_decide_eq_true hlost
  obtain ⟨s', hs', hflag⟩ := (Option.any_eq_true _ _).1 hcancel
  have hreaches : Reaches (Server.step ReusedId.ids) Server.SeparateLifetimes {} s :=
    reaches_of_checked (by simpa using hs)
  exact ⟨s, hreaches, r, hr, hid, hlookup, s', hs', of_decide_eq_true hflag⟩

end Mirage.Lsp
