import Mathlib.Data.Prod.Lex
import Mathlib.Data.String.Basic
import Diffz.Adapters.Store

/-!
# Publication (`crates/adapters/src/outbox.rs`)

`Outbox::publish` and `Outbox::reconcile`, cut at every point where another thread or a crash can
come between: a call of the store, a call of the remote, the gate. A position of a thread holds the
locals that are live there, and `publishMove` and `reconcileMove` say what the code does with the
answer to the call it waits for. What the moves do to the world is in `Service`.

The remote is not in this program; its answers come with the events.
-/

set_option autoImplicit false

namespace Diffz

/-- `SendOutcome`. -/
inductive SendOutcome
  | accepted (response : Json)
  | rejected (code : Nat)
  | unknown (reason : String)

/-! ## Matching a review on the server with a prepared one -/

def samePr (a b : RemoteTarget) : Bool :=
  a.provider = b.provider && a.repository = b.repository && a.pr = b.pr && a.account = b.account

def matchesMetadata (p : PreparedReview) (r : Json) (marked : Bool) : Bool :=
  if marked && !(r.get "fingerprint").isStr p.fingerprint then false
  else (r.get "commit_id").isStr p.target.head && (r.get "state").isStr p.verdict.remoteState &&
    ((r.get "body").asStr.getD "") = p.summary && ((r.get "user").get "login").isStr p.target.account

/-- The tuple comments are compared by: path, body, side, start line, line. -/
abbrev CommentKey := String ×ₗ String ×ₗ String ×ₗ Nat ×ₗ Nat

def CommentKey.mk (path body side : String) (start line : Nat) : CommentKey :=
  toLex (path, toLex (body, toLex (side, toLex (start, line))))

def commentKey (c : Json) : Option CommentKey := do
  let line ← (c.get "line").asU64 <|> (c.get "original_line").asU64
  let start := ((c.get "start_line").asU64 <|> (c.get "original_start_line").asU64).getD line
  let side ← (c.get "side").asStr
  let startSide := (c.get "start_side").asStr.getD side
  if startSide ≠ side then none
  else do
    let path ← (c.get "path").asStr
    let body ← (c.get "body").asStr
    return .mk path body side start line

/-- The key a prepared comment has to be found under. -/
def PreparedComment.key (c : PreparedComment) : CommentKey :=
  .mk c.path c.body c.side.api c.startLine c.line

def matchesReview (p : PreparedReview) (r : Json) (comments : List Json) (marked : Bool) : Bool :=
  if ¬ matchesMetadata p r marked ∨ comments.length ≠ p.comments.length then false
  else match comments.mapM commentKey with
    | none => false
    | some actual =>
      (p.comments.map PreparedComment.key).mergeSort (· ≤ ·) = actual.mergeSort (· ≤ ·)

/-! ## The decisions of `publish` -/

namespace Outbox

/-- Whether another operation on the pull request has no outcome yet. -/
def blocked (db : Db) (p : PreparedReview) : Bool :=
  (Store.outbox db).any fun x => x.prepared.id ≠ p.id && samePr x.prepared.target p.target &&
    (x.state = .unknownOutcome || x.state = .inFlight)

/-- Whether the stored draft of a comment is still the text that was previewed. -/
def stillSaved (saved : List Draft) (c : PreparedComment) : Bool :=
  saved.any fun d => d.id = c.draft && d.version = c.version && d.body = c.body && !d.published &&
    d.isSaved

def draftsSaved (db : Db) (p : PreparedReview) : Bool :=
  p.comments.all (stillSaved (Store.drafts db p.snapshot))

def refused (e : OutboxEntry) : OutboxEntry :=
  { e with state := .rejected, diagnostic := some ("The PR revision, repository, account, or " ++
      "pending-review state no longer matches the preview.") }

def baseline (e : OutboxEntry) (reviews : List Json) : OutboxEntry :=
  { e with baselineReviewIds := reviews.filterMap fun r => (r.get "id").asU64 }

def marked (e : OutboxEntry) : OutboxEntry := { e with state := .inFlight }

def unverified (e : OutboxEntry) : OutboxEntry :=
  { e with state := .unknownOutcome, diagnostic := some ("The server accepted the request, but the " ++
      "review or comment could not be fully verified.") }

/-- The entry after an accepted request, with the comments the server lists for it, if they could be
read. -/
def verified (rules : ReviewRules) (p : PreparedReview) (e : OutboxEntry) (response : Json)
    (comments : Option (List Json)) : OutboxEntry :=
  if comments.any fun cs => matchesReview p response cs rules.marksReviews then
    { e with state := .confirmed, diagnostic := none }
  else unverified e

/-! ## Positions in `publish` -/

/-- Where a call of `publish` stands: what it does next, and the entry it has in hand. -/
inductive PublishAt
  /-- takes the gate -/
  | lock
  /-- reads the operation -/
  | read
  /-- looks for an operation without an outcome -/
  | unresolved (e : OutboxEntry)
  /-- asks the remote for the target -/
  | current (e : OutboxEntry)
  /-- writes that the target has changed -/
  | refuse (e : OutboxEntry)
  /-- reads the drafts again -/
  | drafts (e : OutboxEntry)
  /-- asks for the reviews that are there already -/
  | reviews (e : OutboxEntry)
  /-- asks for the target once more -/
  | recheck (e : OutboxEntry)
  /-- writes that the request may have been made -/
  | mark (e : OutboxEntry)
  /-- makes the request -/
  | send (e : OutboxEntry)
  /-- waits for the request to come back -/
  | sending (e : OutboxEntry)
  /-- asks for the comments of the review -/
  | verify (e : OutboxEntry) (response : Json)
  /-- writes the outcome -/
  | finish (e : OutboxEntry)

/-- What comes back from a call: nothing to report, an error, or what the remote says. -/
inductive Answer
  | done
  | failed
  | target (t : RemoteTarget)
  | reviews (rs : List Json)
  | outcome (o : SendOutcome)
  | comments (cs : List Json)

/-- What a thread does next, with `κ` its positions. A `write` is a `Store::transition`, and goes on
to `next` when the store has taken it. -/
inductive Move (κ : Type)
  | goto (next : κ)
  | write (rules : ReviewRules) (e : OutboxEntry) (next : Option κ)
  | send (p : PreparedReview) (next : κ)
  | leave

/-- The entry that `send` leaves to verify or to write. -/
def sent (e : OutboxEntry) : SendOutcome → PublishAt
  | .rejected code =>
    .finish { e with state := .rejected, diagnostic := some ("Provider refused this request (HTTP "
      ++ toString code ++ "); drafts remain") }
  | .unknown reason => .finish { e with state := .unknownOutcome, diagnostic := some reason }
  | .accepted response =>
    match (response.get "id").asU64 with
    | some id => .verify { e with remoteId := some id } response
    | none => .finish (unverified { e with remoteId := none })

/-- `Outbox::publish` behind its gate. -/
def publishMove (hashes : Hashes) (rules : ReviewRules) (db : Db) (p : PreparedReview) :
    PublishAt → Answer → Option (Move PublishAt)
  | .read, .done =>
    match Store.operation db p.id with
    | .error _ => some .leave
    | .ok e =>
      if e.state ≠ .prepared ∨ e.prepared.fingerprint ≠ p.fingerprint ∨ ¬ p.verify hashes rules then
        some .leave
      else some (.goto (.unresolved e))
  | .unresolved e, .done =>
    -- A pending result for this PR and account also blocks a new id from sending again.
    if blocked db p then some .leave else some (.goto (.current e))
  | .current e, .target t =>
    if t ≠ p.target ∨ ¬ t.isOpen ∨ t.pendingReview then some (.goto (.refuse (refused e)))
    else some (.goto (.drafts e))
  | .refuse e, .done => some (.write rules e none)
  | .drafts e, .done =>
    if draftsSaved db p then some (.goto (.reviews e)) else some .leave
  | .reviews e, .reviews rs => some (.goto (.recheck (baseline e rs)))
  | .recheck e, .target t =>
    if t ≠ p.target then some .leave else some (.goto (.mark (marked e)))
  | .mark e, .done => some (.write rules e (some (.send e)))
  | .send e, .done => some (.send p (.sending e))
  | .sending e, .outcome o => some (.goto (sent e o))
  | .verify e response, .comments cs => some (.goto (.finish (verified rules p e response (some cs))))
  | .verify e response, .failed => some (.goto (.finish (verified rules p e response none)))
  | .finish e, .done => some (.write rules e none)
  -- `send` has no error to return; every other call may fail, which ends the publication.
  | .lock, _ | .send _, _ | .sending _, _ => none
  | _, .failed => some .leave
  | _, _ => none

/-! ## Positions in `reconcile` -/

/-- Where a call of `reconcile` stands. -/
inductive ReconcileAt
  /-- `Services::reconcile` reads the operation to find its provider -/
  | find
  /-- reads the operation -/
  | read (rules : ReviewRules)
  /-- asks the remote for the account -/
  | account (rules : ReviewRules) (e : OutboxEntry)
  /-- asks for the reviews -/
  | reviews (rules : ReviewRules) (e : OutboxEntry)
  /-- goes through the reviews, with the ids that match so far -/
  | scan (rules : ReviewRules) (e : OutboxEntry) (rest : List Json) (found : List Nat)
  /-- writes the match -/
  | confirm (rules : ReviewRules) (e : OutboxEntry)

/-- The id of a review that may be the one that was sent. -/
def candidate (rules : ReviewRules) (e : OutboxEntry) (r : Json) : Option Nat :=
  match (r.get "id").asU64 with
  | none => none
  | some id =>
    match e.remoteId with
    | some known =>
      if known ≠ id ∨ ¬ matchesMetadata e.prepared r rules.marksReviews then none else some id
    | none =>
      if id ∈ e.baselineReviewIds ∨ ¬ matchesMetadata e.prepared r rules.marksReviews then none
      else some id

def reconciled (e : OutboxEntry) (id : Nat) : OutboxEntry :=
  { e with state := .confirmed, remoteId := some id, diagnostic := none }

/-- `Outbox::reconcile`, with the lookup of the provider that `Services::reconcile` makes before. -/
def reconcileMove (providerFor : ProviderId → Option ReviewRules) (db : Db) (id : OperationId) :
    ReconcileAt → Answer → Option (Move ReconcileAt)
  | .find, .done =>
    match Store.operation db id with
    | .error _ => some .leave
    | .ok e =>
      match providerFor e.prepared.target.provider with
      | none => some .leave
      | some rules => some (.goto (.read rules))
  | .read rules, .done =>
    match Store.operation db id with
    | .error _ => some .leave
    | .ok e => if e.state ≠ .unknownOutcome then some .leave else some (.goto (.account rules e))
  | .account rules e, .target t =>
    if t.account ≠ e.prepared.target.account then some .leave else some (.goto (.reviews rules e))
  | .reviews rules e, .reviews rs => some (.goto (.scan rules e rs []))
  | .scan rules e (r :: rest) found, answer =>
    match candidate rules e r, answer with
    | none, .done => some (.goto (.scan rules e rest found))
    | some id, .comments cs =>
      if matchesReview e.prepared r cs rules.marksReviews then
        some (.goto (.scan rules e rest (found ++ [id])))
      else some (.goto (.scan rules e rest found))
    | some _, .failed => some .leave
    | _, _ => none
  | .scan rules e [] found, .done =>
    match found with
    | [id] => some (.goto (.confirm rules (reconciled e id)))
    -- With zero or several matches the outcome stays unknown.
    | _ => some .leave
  | .confirm rules e, .done => some (.write rules e none)
  | .scan _ _ [] _, _ => none
  | _, .failed => some .leave
  | _, _ => none

end Outbox
end Diffz
