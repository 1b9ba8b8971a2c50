import Mathlib.Logic.Function.Basic
import Diffz.Adapters.Github
import Diffz.Adapters.Gitlab
import Diffz.Adapters.Outbox
import Diffz.Lib.Lts

/-!
# The running program (`crates/adapters/src/service.rs`)

`Services` has the registered providers and one long-lived outbox for each of them that may
publish. Around it stands the world the outboxes run in: the store on disk, the threads of the
process with their positions, and the gates.

An event is one step of one party. Every step makes at most one transaction of the store; whether
the transaction succeeds, and what the remote answers, comes with the event. A crash takes the
process away between any two steps and leaves the store; opening it again runs `recover_inflight`,
one write at a time, and `prune`.
-/

set_option autoImplicit false

namespace Diffz

/-! ## Providers -/

namespace Entire

/-- `READ_ONLY`. -/
def readOnly : String :=
  "Entire Trails are read-only in Diffz. Local drafts and exports remain available; publish " ++
    "reviews in Entire."

/-- `EntireRules`. -/
def rules : ReviewRules where
  id := .entire
  readOnlyReason := some readOnly
  check _ _ _ := .ok ()
  position _ _ _ := .ok none
  payload _ := .null
  marksReviews := false

end Entire

/-- An `Outbox`: the rules of its provider, and its gate. -/
structure Outbox where
  rules : ReviewRules
  gate : Nat

/-- The registered providers, the last one first where two have an id in common, and the outboxes of
those that may publish. -/
structure Services where
  providers : List ReviewRules
  outboxes : ProviderId → Option Outbox
  registered : ∀ π o, outboxes π = some o → o.rules ∈ providers

namespace Services

def empty : Services where
  providers := []
  outboxes _ := none
  registered _ _ h := nomatch h

/-- `register`; `remote` is whether the provider's command line tool is there, `gate` the mutex the
new outbox makes. -/
def register (s : Services) (rules : ReviewRules) (writes remote : Bool) (gate : Nat) : Services where
  providers := rules :: s.providers
  outboxes := Function.update s.outboxes rules.id
    (if writes ∧ rules.readOnlyReason = none ∧ remote then some ⟨rules, gate⟩ else none)
  registered := by
    intro π o ho
    rw [Function.update_apply] at ho
    split at ho
    · split at ho <;> cases ho
      exact List.mem_cons_self
    · exact List.mem_cons_of_mem _ (s.registered π o ho)

def providerFor (s : Services) (id : ProviderId) : Option ReviewRules :=
  s.providers.find? fun r => r.id = id

/-- `new_with_providers`. -/
def newWithProviders (hashes : Hashes) (writes gitlabWrites gh glab : Bool) : Services :=
  ((empty.register Github.rules writes gh 0).register (Gitlab.rules hashes) gitlabWrites glab
    1).register Entire.rules false false 2

end Services

/-! ## The world -/

/-- The mutex of an outbox. -/
inductive Gate
  | free
  | held (t : Nat)
  | poisoned
deriving DecidableEq

/-- A thread inside `Outbox::publish` or `Services::reconcile`. -/
inductive Thread
  | publish (o : Outbox) (p : PreparedReview) (pos : Outbox.PublishAt)
  | reconcile (id : OperationId) (pos : Outbox.ReconcileAt)

/-- Whether the store is open; `opening` has the entries `recover_inflight` has still to look at. -/
inductive Phase
  | closed
  | opening (todo : List OutboxEntry)
  | running

structure World where
  db : Db
  phase : Phase
  threads : Nat → Option Thread
  gates : Nat → Gate
  /-- the reviews `remote.send` was called with, the last one first -/
  sent : List PreparedReview
  /-- the drafts that were discarded -/
  discarded : List DraftId

inductive Event
  | saveDraft (d : Draft) (ok : Bool)
  | discardDraft (id : DraftId) (version : Nat) (ok : Bool)
  | showRecent (id : SnapshotId) (now : Nat)
  | insertPrepared (rules : ReviewRules) (p : PreparedReview) (ok : Bool)
  /-- `Store::transition`, called from outside an outbox -/
  | transition (rules : ReviewRules) (e : OutboxEntry) (ok : Bool)
  | publish (t : Nat) (o : Outbox) (p : PreparedReview)
  /-- `Services::reconcile`, or `Outbox::reconcile` of an outbox with the given rules -/
  | reconcile (t : Nat) (rules : Option ReviewRules) (id : OperationId)
  /-- the thread gets the answer it waits for -/
  | step (t : Nat) (answer : Outbox.Answer)
  | panic (t : Nat)
  | crash
  /-- `Store::open`, up to the list of entries, in the order it comes -/
  | openStore (order : List OperationId)
  | recover (ok : Bool)
  | prune (ok : Bool)

namespace World

/-- A transaction that may fail; a failed one leaves the tables as they were. -/
def committed (ok : Bool) (result : Except String Db) : Option Db :=
  match ok, result with
  | true, .ok db => some db
  | _, _ => none

def goto (w : World) (t : Nat) (th : Thread) : World :=
  { w with threads := Function.update w.threads t (some th) }

/-- A call ends, and leaves the gate it held as `g`. -/
def leave (w : World) (t : Nat) (gate : Option Nat) (g : Gate) : World :=
  { w with
    threads := Function.update w.threads t none
    gates := match gate with
      | some n => Function.update w.gates n g
      | none => w.gates }

/-- The gate a thread holds: `publish` has one from its first step on, and the outbox that
`Services::reconcile` makes is seen by nobody else. -/
def gateOf : Thread → Option Nat
  | .publish _ _ .lock => none
  | .publish o _ _ => some o.gate
  | .reconcile _ _ => none

/-- What a move of thread `t` does. -/
def perform {κ : Type} (hashes : Hashes) (w : World) (t : Nat) (gate : Option Nat)
    (thread : κ → Thread) : Outbox.Move κ → World
  | .goto next => w.goto t (thread next)
  | .write rules e next =>
    match Store.transition hashes w.db e rules with
    | .error _ => w.leave t gate .free
    | .ok db =>
      match next with
      | some next => { w with db }.goto t (thread next)
      | none => { w with db }.leave t gate .free
  | .send p next => { w.goto t (thread next) with sent := p :: w.sent }
  | .leave => w.leave t gate .free

/-- One step of a thread. -/
def advance (hashes : Hashes) (services : Services) (w : World) (t : Nat) (answer : Outbox.Answer) :
    Option World :=
  match w.threads t with
  | none => none
  | some (.publish o p .lock) =>
    match w.gates o.gate with
    | .free =>
      some { w.goto t (.publish o p .read) with gates := Function.update w.gates o.gate (.held t) }
    | .held _ => none
    | .poisoned => some (w.leave t none .free)
  | some (.publish o p pos) =>
    (Outbox.publishMove hashes o.rules w.db p pos answer).map
      (w.perform hashes t (some o.gate) (.publish o p))
  | some (.reconcile id pos) =>
    (Outbox.reconcileMove services.providerFor w.db id pos answer).map
      (w.perform hashes t none (.reconcile id))

/-- `recover_inflight`, one entry. -/
def recoverOne (hashes : Hashes) (w : World) (ok : Bool) (e : OutboxEntry)
    (rest : List OutboxEntry) : World :=
  if e.state = .inFlight then
    match committed ok (Store.writeTransition hashes w.db (Store.recovered e) none) with
    | some db => { w with db, phase := .opening rest }
    | none => { w with phase := .closed }
  else { w with phase := .opening rest }

/-- A call on the open store. -/
def call (hashes : Hashes) (w : World) : Event → Option World
  | .saveDraft d ok =>
    some (match committed ok (Store.saveDraft hashes w.db d) with
      | some db => { w with db }
      | none => w)
  | .discardDraft id version ok =>
    some (match committed ok (Store.discardDraft w.db id version) with
      | some db => { w with db, discarded := id :: w.discarded }
      | none => w)
  | .showRecent id now => some { w with db := Store.showRecent w.db id now }
  | .insertPrepared rules p ok =>
    some (match committed ok (Store.insertPrepared hashes w.db p rules) with
      | some db => { w with db }
      | none => w)
  | .transition rules e ok =>
    some (match committed ok (Store.transition hashes w.db e rules) with
      | some db => { w with db }
      | none => w)
  | .publish t o p =>
    match w.threads t with
    | none => some (w.goto t (.publish o p .lock))
    | some _ => none
  | .reconcile t rules id =>
    match w.threads t with
    | none => some (w.goto t (.reconcile id ((rules.map Outbox.ReconcileAt.read).getD .find)))
    | some _ => none
  | .panic t => (w.threads t).map fun th => w.leave t (gateOf th) .poisoned
  | _ => none

def step (hashes : Hashes) (services : Services) (w : World) (ev : Event) : Option World :=
  match w.phase, ev with
  | _, .crash =>
    some { w with phase := .closed, threads := fun _ => none, gates := fun _ => .free }
  | .closed, .openStore order =>
    if order.Perm w.db.outbox.keys then
      some { w with phase := .opening (order.filterMap fun id =>
        (w.db.outbox.find id).map OutboxRow.data) }
    else none
  | .opening (e :: rest), .recover ok => some (w.recoverOne hashes ok e rest)
  | .opening [], .prune ok =>
    some (if ok then { w with db := Store.prune w.db Store.keepRecent, phase := .running }
      else { w with phase := .closed })
  | .running, .step t answer => w.advance hashes services t answer
  | .running, ev => w.call hashes ev
  | _, _ => none

def system (hashes : Hashes) (services : Services) : Lts World Event := ⟨step hashes services⟩

/-- A state directory with nothing in its outbox and no drafts, before the program is started. The
snapshots in it stand under their ids, as `put_snapshot` writes them. -/
structure Initial (w : World) : Prop where
  phase : w.phase = .closed
  threads : w.threads = fun _ => none
  gates : w.gates = fun _ => .free
  snapshots : ∀ id row, w.db.snapshots.find id = some row → row.data.id = id
  drafts : w.db.drafts = ∅
  outbox : w.db.outbox = ∅
  sent : w.sent = []
  discarded : w.discarded = []

end World
end Diffz
