import Diffz.Core.Snapshot

/-!
# Prepared reviews (`crates/core/src/review.rs`, `crates/core/src/provider.rs`)

`prepare` freezes drafts, verdict and summary into a `PreparedReview` and fingerprints it;
`verify` recomputes the fingerprint. What differs between providers is a `ReviewRules`. The outbox
keeps a prepared review in an `OutboxEntry`, whose state moves along `canTransition` only.

Raw JSON (`RawValue`) is kept as the value it spells: it is written by the program itself and its
fields keep their order.
-/

set_option autoImplicit false

namespace Diffz

inductive Verdict
  | approve
  | requestChanges
  | comment
deriving DecidableEq, Repr

namespace Verdict

def api : Verdict → String
  | .approve => "APPROVE"
  | .requestChanges => "REQUEST_CHANGES"
  | .comment => "COMMENT"

def remoteState : Verdict → String
  | .approve => "APPROVED"
  | .requestChanges => "CHANGES_REQUESTED"
  | .comment => "COMMENTED"

def toJson : Verdict → Json
  | .approve => .str "Approve"
  | .requestChanges => .str "RequestChanges"
  | .comment => .str "Comment"

end Verdict

/-- `ReviewError`: the reason a review cannot be prepared. -/
abbrev ReviewError := String

structure PreparedComment where
  draft : DraftId
  version : Nat
  path : String
  position : Option Json
  body : String
  side : Side
  startLine : Nat
  line : Nat
  fileLevel : Bool

def PreparedComment.toJson (c : PreparedComment) : Json :=
  .obj ([("draft", .str c.draft.val), ("version", .num c.version), ("path", .str c.path)] ++
    skipNone "gitlab_position" c.position ++
    [("body", .str c.body), ("side", c.side.toJson), ("start_line", .num c.startLine),
      ("line", .num c.line), ("file_level", .bool c.fileLevel)])

structure PreparedReview where
  id : OperationId
  snapshot : SnapshotId
  target : RemoteTarget
  verdict : Verdict
  summary : String
  comments : List PreparedComment
  fingerprint : String

/-- What a provider decides about a review. -/
structure ReviewRules where
  id : ProviderId
  readOnlyReason : Option String
  check : Verdict → String → List Draft → Except ReviewError Unit
  position : RemoteTarget → FileChange → Draft → Except ReviewError (Option Json)
  payload : PreparedReview → Json
  marksReviews : Bool

namespace PreparedReview

/-! ## Fingerprints -/

/-- The tuple that is serialised and hashed. -/
def fingerprinted (rules : ReviewRules) (p : PreparedReview) : Json :=
  .arr [.str p.id.val, .str p.snapshot.val, p.target.toJson, rules.payload p,
    .arr (p.comments.map fun c => .arr [.str c.draft.val, .num c.version])]

def fingerprintOf (hashes : Hashes) (input : Json) : String :=
  digest hashes.sha256 [asBytes "review-v1", input.toVec]

def computeFingerprint (hashes : Hashes) (rules : ReviewRules) (p : PreparedReview) : String :=
  fingerprintOf hashes (p.fingerprinted rules)

def verify (hashes : Hashes) (rules : ReviewRules) (p : PreparedReview) : Bool :=
  rules.id = p.target.provider && p.fingerprint = p.computeFingerprint hashes rules

/-! ## Preparation -/

/-- One draft of a review; `seen` are the ids of the drafts before it. -/
def prepareComment (rules : ReviewRules) (s : Snapshot) (target : RemoteTarget)
    (seen : List DraftId) (d : Draft) : Except ReviewError PreparedComment :=
  if d.id ∈ seen then .error "duplicate local draft"
  else if d.snapshot ≠ s.id ∨ d.published then
    .error "draft targets another revision or has already been published"
  else if ¬ d.isSaved then .error "save every selected draft before continuing"
  else if isBlank d.body ∨ (asBytes d.body).length > 64 * 1024 then
    .error "empty or oversized draft body"
  else match s.file d.file with
    | none => .error "draft file is absent from this snapshot"
    | some f =>
      if ¬ d.isFileLevel ∧ ¬ f.eligible d.side d.startLine d.line then
        .error "comment range must remain inside one canonical provider hunk for posting"
      else match f.path with
        -- The source panics here; `expect("parser requires a path")`.
        | none => .error "parser requires a path"
        | some p => do
          let path ← p.utf8
          let position ← rules.position target f d
          return { position, draft := d.id, version := d.version, path, fileLevel := d.isFileLevel,
                   body := d.body, side := d.side, startLine := d.startLine, line := d.line }

def prepareComments (rules : ReviewRules) (s : Snapshot) (target : RemoteTarget) :
    List DraftId → List Draft → Except ReviewError (List PreparedComment)
  | _, [] => .ok []
  | seen, d :: drafts => do
    let c ← prepareComment rules s target seen d
    let cs ← prepareComments rules s target (d.id :: seen) drafts
    return c :: cs

def prepare (hashes : Hashes) (rules : ReviewRules) (id : OperationId) (s : Snapshot)
    (drafts : List Draft) (verdict : Verdict) (summary : String) :
    Except ReviewError PreparedReview :=
  match s.remote with
  | none => .error "offline source; a hosted review target is required"
  | some target =>
    if rules.id ≠ target.provider then .error "this review belongs to another provider"
    else match rules.readOnlyReason with
      | some reason => .error reason
      | none =>
        if target.compare ≠ none then
          .error "a compare is read-only; reviews can only be sent on a pull or merge request"
        else do
          rules.check verdict summary drafts
          if ¬ s.verifyIdentity hashes then .error "snapshot identity failed verification"
          else if s.warnings ≠ [] then
            .error "coverage warnings mean the snapshot is incomplete; inspect diagnostics first"
          else if ¬ target.isOpen then .error "pull request is not open"
          else if target.pendingReview then
            .error "another pending review exists; handle it separately"
          else if verdict ≠ .approve ∧ isBlank summary then .error "this verdict needs a summary"
          else if (asBytes summary).length > 64 * 1024 ∨ drafts.length > 100 then
            .error "summary or batch is beyond safety limits"
          else do
            let comments ← prepareComments rules s target [] drafts
            let p : PreparedReview :=
              { id, snapshot := s.id, target, verdict, summary, comments, fingerprint := "" }
            return { p with fingerprint := p.computeFingerprint hashes rules }

end PreparedReview

/-! ## The outbox lifecycle -/

inductive OutboxState
  | prepared
  | inFlight
  | confirmed
  | rejected
  | unknownOutcome
deriving DecidableEq, Repr

namespace OutboxState

def debug : OutboxState → String
  | .prepared => "Prepared"
  | .inFlight => "InFlight"
  | .confirmed => "Confirmed"
  | .rejected => "Rejected"
  | .unknownOutcome => "UnknownOutcome"

def canTransition : OutboxState → OutboxState → Bool
  | .prepared, .inFlight => true
  | .prepared, .rejected => true
  | .inFlight, .confirmed => true
  | .inFlight, .rejected => true
  | .inFlight, .unknownOutcome => true
  | .unknownOutcome, .confirmed => true
  | _, _ => false

end OutboxState

structure OutboxEntry where
  prepared : PreparedReview
  state : OutboxState
  baselineReviewIds : List Nat
  remoteId : Option Nat
  diagnostic : Option String

end Diffz
