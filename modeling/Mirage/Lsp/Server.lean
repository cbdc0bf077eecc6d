import Mirage.Lib.Actions
import Mathlib.Data.List.AList

/-!
# The threads of the language server

The model of `Server::run` and `run_worker_loop` (`lsp/server.cpp`) with the queue between them
(`lsp/task_queue.hpp`). The main thread reads messages, keeps the table `in_flight_` of the
requests that may be cancelled, and pushes tasks; the worker pops them one by one, runs them and
reports the requests it is done with. A state has a program point for each thread, and an
action is one step of one of them between two accesses to what they share: the queue, the
flags, the completed requests and the output channel.

Requests and documents are abstract: a request computes an answer or throws, and a document
notification changes the store of the worker. What the environment decides comes with the action:
the message that is read, whether the sweep of due diagnostics throws, and how a
computation ends. Some data is only recorded, and nothing depends on it: the serial number of a
request and the documents received before it, and the documents that had been applied when
a request was computed.
-/

namespace Mirage.Lsp

/-- The ids of JSON-RPC messages, with their texts. -/
structure JsonIds (Id : Type) where
  null : Id
  dump : Id → String
  parse : String → Option Id
  parse_dump : ∀ id, parse (dump id) = some id

def invalidRequest : Int := -32600
def methodNotFound : Int := -32601
def internalError : Int := -32603
def serverNotInitialized : Int := -32002
def requestCancelled : Int := -32800

/-- `TaskQueue::MAX_PENDING`. -/
def maxPending : Nat := 4096

/-- The parameters of a request: for a document the server cannot handle, not readable (with the
    text of the error), or read. -/
inductive Params (Query : Type)
  | unsupported
  | malformed (text : String)
  | query (query : Query)

/-- A message of the client. -/
inductive Message (Id Doc Query : Type)
  /-- Not JSON, or without a method. -/
  | skipped
  | badMethod (id : Id)
  | initializeRequest (id : Id)
  | initialized (id : Id)
  | shutdown (id : Id)
  | exit (id : Id)
  | cancelRequest (id target : Id)
  /-- `didOpen`, `didChange`, `didClose` and `didChangeWatchedFiles`; nothing is to be done for a
      document the server cannot handle and for an empty change. -/
  | document (id : Id) (doc : Option Doc)
  /-- `hover`, `definition`, `completion`, `references` and `inlayHint`. -/
  | request (id : Id) (params : Params Query)
  /-- A message of another method than a request, with unreadable fields. -/
  | malformed (id : Id) (text : String)
  | unhandled (id : Id) (method : String)

/-- The id of a message, null if it has none. -/
def Message.id {Id Doc Query : Type} (J : JsonIds Id) : Message Id Doc Query → Id
  | .skipped => J.null
  | .badMethod id | .initializeRequest id | .initialized id | .shutdown id | .exit id
  | .cancelRequest id _ | .document id _ | .request id _ | .malformed id _ | .unhandled id _ => id

/-- A request that was read: its number, its id, what it asks, and the documents received before
    it. -/
structure Request (Id Doc Query : Type) where
  serial : Nat
  id : Id
  query : Query
  before : List Doc

/-- A task in the queue. -/
inductive Job (Id Doc Query : Type)
  | document (doc : Doc)
  | request (r : Request Id Doc Query)

/-- What a response says. -/
inductive Reply (Answer : Type)
  | result (answer : Answer)
  | capabilities
  | null
  | error (code : Int) (text : String)

/-- A response, with the number of the request it answers. -/
structure Response (Id Answer : Type) where
  id : Id
  reply : Reply Answer
  serial : Option Nat

/-- How a computation ends. The text of an answer or an exception is missing where it is not valid
    UTF-8, so that it cannot be sent. -/
inductive Outcome (Answer : Type)
  | returns (answer : Option Answer)
  | throws (what : Option String)
  | throwsOther

/-- The program points of the main thread. -/
inductive MainPoint (Id Doc Query : Type)
  | drain
  | read
  /-- The request is in flight, and the queue may be full. -/
  | offer (r : Request Id Doc Query)
  | reject (r : Request Id Doc Query)
  | push (job : Job Id Doc Query)
  | exited

/-- The program points of the worker. -/
inductive WorkerPoint (Id Doc Query Answer : Type)
  | loop
  | sweep
  | pop
  | popped (job : Option (Job Id Doc Query))
  | check (job : Job Id Doc Query)
  | runDocument (doc : Doc)
  /-- The request was cancelled before it was started. -/
  | skip (r : Request Id Doc Query)
  | start (r : Request Id Doc Query)
  | compute (r : Request Id Doc Query)
  | computed (r : Request Id Doc Query) (answer : Option Answer)
  | respondCancelled (r : Request Id Doc Query)
  | respond (r : Request Id Doc Query) (answer : Option Answer)
  | failed (r : Request Id Doc Query) (text : Option String)
  /-- The response is sent, and the completion is to be reported. -/
  | markDone (r : Request Id Doc Query)
  | stopped (job : Option (Job Id Doc Query))
  | terminated (job : Option (Job Id Doc Query))

structure Server (Id Doc Query Answer : Type) where
  running : Bool := false
  shutdownReceived : Bool := false
  stopRequested : Bool := false
  main : MainPoint Id Doc Query := .drain
  worker : WorkerPoint Id Doc Query Answer := .loop
  queue : List (Job Id Doc Query) := []
  /-- The flag of each request in flight, by the text of its id. -/
  inFlight : AList fun _ : String => Nat := ∅
  /-- The flags of the requests, by their numbers. -/
  cancelled : Nat → Bool := fun _ => false
  completed : List String := []
  sent : List (Response Id Answer) := []
  /-- The number of the next request. -/
  next : Nat := 0
  /-- The numbers of the requests that were pushed. -/
  accepted : List Nat := []
  received : List Doc := []
  applied : List Doc := []
  /-- The requests that were computed, each with the documents applied before. -/
  computedAfter : List (Request Id Doc Query × List Doc) := []

/-- A step of one of the threads. -/
inductive ServerAction (Id Doc Query Answer : Type)
  | main (input : Option (Message Id Doc Query))
  | worker (sweepThrows : Bool) (outcome : Outcome Answer)

namespace Server

variable {Id Doc Query Answer : Type} [DecidableEq Id] (J : JsonIds Id)

/-- Send a response. -/
def reply (s : Server Id Doc Query Answer) (id : Id) (r : Reply Answer)
    (serial : Option Nat := none) : Server Id Doc Query Answer :=
  { s with sent := s.sent ++ [⟨id, r, serial⟩] }

/-- Send an error to a message that has an id. -/
def replyError (s : Server Id Doc Query Answer) (id : Id) (code : Int) (text : String) :
    Server Id Doc Query Answer :=
  if id = J.null then s else s.reply id (.error code text)

/-- Recover the id from its text and send an error. -/
def answerFailedTask (s : Server Id Doc Query Answer) (r : Request Id Doc Query) (code : Int)
    (text : String) : Server Id Doc Query Answer :=
  match J.parse (J.dump r.id) with
  | none => s
  | some id => s.reply id (.error code text) (some r.serial)

/-- Remove the completed requests from the table. -/
def drain (s : Server Id Doc Query Answer) : Server Id Doc Query Answer :=
  { s with
    inFlight := s.completed.foldl (fun l key => l.erase key) s.inFlight
    completed := [] }

def cancelRequest (s : Server Id Doc Query Answer) (target : Id) : Server Id Doc Query Answer :=
  match s.inFlight.lookup (J.dump target) with
  | none => s
  | some n => { s with cancelled := fun m => if m = n then true else s.cancelled m }

/-- `enqueue_cancellable_request`, up to the check of the queue. -/
def enqueueRequest (s : Server Id Doc Query Answer) (id : Id) :
    Params Query → Server Id Doc Query Answer
  | .unsupported => { s with next := s.next + 1 }.reply id .null (some s.next)
  | .malformed text =>
    if id = J.null then s
    else { s with next := s.next + 1 }.reply id (.error internalError text) (some s.next)
  | .query query => { s with
      next := s.next + 1
      inFlight := s.inFlight.insert (J.dump id) s.next
      main := .offer ⟨s.next, id, query, s.received⟩ }

/-- Handle a message after the checks of the lifecycle. -/
def dispatch (s : Server Id Doc Query Answer) :
    Message Id Doc Query → Server Id Doc Query Answer
  | .skipped | .badMethod _ | .initialized _ => s
  | .initializeRequest id =>
    if s.running then s.reply id (.error invalidRequest "server is already initialized")
    else { s with running := true }.reply id .capabilities
  | .shutdown id => { s with shutdownReceived := true }.reply id .null
  | .exit _ => { s with stopRequested := true, main := .exited }
  | .cancelRequest _ target => s.cancelRequest J target
  | .document _ none => s
  | .document _ (some doc) => { s with
      received := s.received ++ [doc]
      main := .push (.document doc) }
  | .request id params => s.enqueueRequest J id params
  | .malformed id text => s.replyError J id internalError text
  | .unhandled id method => s.replyError J id methodNotFound ("method not found: " ++ method)

/-- Handle a message that was read. -/
def handle (s : Server Id Doc Query Answer) (m : Message Id Doc Query) :
    Server Id Doc Query Answer :=
  let s := { s with main := .drain }
  match m with
  | .skipped => s
  | .badMethod id => s.replyError J id invalidRequest "'method' must be a string"
  | .exit _ => s.dispatch J m
  | .initializeRequest _ =>
    if s.shutdownReceived then
      s.replyError J (m.id J) invalidRequest "server is shutting down"
    else s.dispatch J m
  | _ =>
    if !s.running then s.replyError J (m.id J) serverNotInitialized "server not initialized"
    else if s.shutdownReceived then
      s.replyError J (m.id J) invalidRequest "server is shutting down"
    else s.dispatch J m

/-- A step of the main thread; nothing is read at the end of the input. -/
def mainStep (s : Server Id Doc Query Answer) (input : Option (Message Id Doc Query)) :
    Option (Server Id Doc Query Answer) :=
  match s.main with
  | .drain => some { s.drain with main := .read }
  | .read =>
    match input with
    | none => some { s with stopRequested := true, main := .exited }
    | some m => some (s.handle J m)
  | .offer r =>
    if maxPending ≤ s.queue.length then some { s with main := .reject r }
    else some { s with main := .push (.request r) }
  | .reject r => some ({ s with
      inFlight := s.inFlight.erase (J.dump r.id)
      main := .drain }.reply r.id (.error internalError "server busy: task queue full")
        (some r.serial))
  | .push job => some { s with
      queue := s.queue ++ [job]
      accepted := match job with
        | .document _ => s.accepted
        | .request r => s.accepted ++ [r.serial]
      main := .drain }
  | .exited => none

/-- A step of the worker. -/
def workerStep (s : Server Id Doc Query Answer) (sweepThrows : Bool) (outcome : Outcome Answer) :
    Option (Server Id Doc Query Answer) :=
  match s.worker with
  | .loop => some { s with worker := if s.stopRequested then .stopped none else .sweep }
  | .sweep => some { s with worker := if sweepThrows then .terminated none else .pop }
  | .pop =>
    match s.queue with
    | [] => some { s with worker := .popped none }
    | job :: queue => some { s with queue, worker := .popped (some job) }
  | .popped job =>
    if s.stopRequested then some { s with worker := .stopped job }
    else match job with
      | none => some { s with worker := .loop }
      | some job => some { s with worker := .check job }
  | .check (.document doc) => some { s with worker := .runDocument doc }
  | .check (.request r) =>
    some { s with worker := if s.cancelled r.serial then .skip r else .start r }
  | .runDocument doc => some { s with applied := s.applied ++ [doc], worker := .loop }
  | .skip r => some { s.answerFailedTask J r requestCancelled "request cancelled" with
      worker := .markDone r }
  | .start r =>
    some { s with worker := if s.cancelled r.serial then .respondCancelled r else .compute r }
  | .compute r => some { s with
      computedAfter := s.computedAfter ++ [(r, s.applied)]
      worker := match outcome with
        | .returns answer => .computed r answer
        | .throws what => .failed r (what.map ("internal error: " ++ ·))
        | .throwsOther => .failed r (some "internal error handling request") }
  | .computed r answer => some { s with
      worker := if s.cancelled r.serial then .respondCancelled r else .respond r answer }
  | .respondCancelled r =>
    some ({ s with worker := .markDone r }.reply r.id
      (.error requestCancelled "request cancelled") (some r.serial))
  | .respond r (some answer) =>
    some ({ s with worker := .markDone r }.reply r.id (.result answer) (some r.serial))
  | .respond r none => some { s with worker := .failed r (some "internal error: invalid UTF-8") }
  | .failed r (some text) => some { s.answerFailedTask J r internalError text with
      worker := .markDone r }
  | .failed r none => some { s with worker := .terminated (some (.request r)) }
  | .markDone r => some { s with completed := s.completed ++ [J.dump r.id], worker := .loop }
  | .stopped _ | .terminated _ => none

def step (s : Server Id Doc Query Answer) :
    ServerAction Id Doc Query Answer → Option (Server Id Doc Query Answer)
  | .main input => s.mainStep J input
  | .worker sweepThrows outcome => s.workerStep J sweepThrows outcome

end Server

end Mirage.Lsp
