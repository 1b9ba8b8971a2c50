import Diffz.Adapters.Address
import Diffz.Adapters.Gitlab
import Diffz.Adapters.Outbox
import Diffz.Lib.Dialogue

/-!
# Sending a review (`GithubWriter::send` and `GitlabWriter::send`)

GitHub takes a review in one request. GitLab takes it in many, and the merge request is read again
before each of them. Both verify the fingerprint first.

The command-line tools and the servers behind them are at the other end of a `Dialogue`; the reader
of JSON text is the parameter `parse`.
-/

set_option autoImplicit false

namespace Diffz
namespace Http

/-- The arguments of `request`: the body is the value that is written. -/
structure Request where
  host : String
  endpoint : String
  method : String
  accept : Option String
  body : Option Json

/-- `HttpResponse`, as far as the writers read it. -/
structure Response where
  status : Nat
  body : Bytes

/-- A response, or why the tool did not give one. -/
abbrev Reply := Except String Response

abbrev Talk := Dialogue Request Reply

end Http

open Http (Request Response Reply Talk)

/-- `serde_json::from_slice` and `from_str`, to a value. -/
abbrev ParseJson := Bytes → Except String Json

/-! ## GitHub -/

namespace Github

/-- `GithubReader::request`. No endpoint is a link. -/
def request (host endpoint method : String) (body : Option Json) (accept : String) : Talk Reply :=
  if startsWith endpoint.toList "-" ∨ startsWith endpoint.toList "/" ∨
      hasText endpoint.toList "://" then
    .done (.error "invalid relative GitHub API endpoint")
  else .ask ⟨host, endpoint, method, some accept, body⟩ .done

def sendOutcome (parse : ParseJson) : Reply → SendOutcome
  | .ok r =>
    if r.status = 200 ∨ r.status = 201 then
      match parse r.body with
      | .ok v => .accepted v
      | .error _ =>
        .unknown "the server reported success but the response body could not be read"
    else if 400 ≤ r.status ∧ r.status < 500 ∧ r.status ≠ 408 then .rejected r.status
    else .unknown ("the write got HTTP " ++ toString r.status ++
      "; retrying it automatically is not safe")
  | .error e => .unknown e

/-- `GithubWriter::send`. -/
def send (hashes : Hashes) (parse : ParseJson) (p : PreparedReview) : Talk SendOutcome :=
  if ¬ p.verify hashes rules then .done (.rejected 422)
  else match parse (payload p).toVec with
    | .error _ => .done (.rejected 422)
    | .ok payload => do
      let a := PrAddress.fromTarget p.target
      let r ← request a.host (a.root ++ "/reviews") "POST" (some payload)
        "Accept: application/vnd.github+json"
      return sendOutcome parse r

end Github

/-! ## GitLab -/

namespace Gitlab

/-- `GitlabReader::request`. -/
def request (a : MrAddress) (path method : String) (body : Option Json) : Talk Reply :=
  .ask ⟨a.host, path, method, none, body⟩ .done

/-- `AdapterError::Json`. -/
def jsonError (e : String) : String := "unexpected JSON document: " ++ e

/-- `GitlabReader::get`. -/
def get (parse : ParseJson) (a : MrAddress) (path : String) : Talk (Except String Json) := do
  match ← request a path "GET" none with
  | .error e => return .error e
  | .ok r =>
    if r.status ≠ 200 then return .error ("GitLab read returned HTTP " ++ toString r.status)
    else return (parse r.body).mapError jsonError

/-- `string`: a text of the response, or what it misses. -/
def string (j : Json) (pointer : String) : Except String String :=
  match j.asStr with
  | some s => .ok s
  | none => .error ("GitLab response missing " ++ pointer)

/-- `target`: the review target of a merge request. -/
def target (a : MrAddress) (m user : Json) : Except String RemoteTarget :=
  match rsplitOnce ['/'] a.project.toList with
  | none => .error "Invalid project"
  | some (owner, name) =>
    match (m.get "project_id").asU64 with
    | none => .error "Missing project ID"
    | some id => do
      let refs := m.get "diff_refs"
      let account ← string (user.get "username") "/username"
      let targetTip ← string (refs.get "start_sha") "/diff_refs/start_sha"
      let comparisonBase ← string (refs.get "base_sha") "/diff_refs/base_sha"
      let head ← string (refs.get "head_sha") "/diff_refs/head_sha"
      let t : RemoteTarget :=
        { provider := .gitlab
          repository := ⟨a.host, id, String.ofList owner, String.ofList name⟩
          account, pr := a.number, targetTip, comparisonBase, head
          isOpen := (m.get "state").isStr "opened"
          draft := (m.get "draft").isTrue || (m.get "work_in_progress").isTrue
          merged := (m.get "state").isStr "merged"
          pendingReview := false, compare := none, entire := none }
      if ¬ usableRefs t then .error "GitLab has not produced usable diff references yet"
      else if (m.get "iid").asU64 ≠ some a.number then .error "GitLab MR identity mismatch"
      else return t

/-- `GitlabWriter::current`. -/
def current (parse : ParseJson) (t : RemoteTarget) : Talk (Except String RemoteTarget) := do
  let a := MrAddress.fromTarget t
  match ← get parse a a.root with
  | .error e => return .error e
  | .ok m =>
    match ← get parse a "user" with
    | .error e => return .error e
    | .ok user => return target a m user

/-- How the closure of `send` ends early: in an error, with the flag `sent` as it is then, or in a
panic. -/
inductive Stop
  | failed (sent : Bool) (message : String)
  | panicked

abbrev Closure := ExceptT Stop Talk

/-- The `?` of the closure. -/
def attempt {α : Type} (sent : Bool) (x : Talk (Except String α)) : Closure α :=
  .mk (x.bind fun r => .done (r.mapError (.failed sent)))

/-- The merge request is as it was when the review was prepared. -/
def requireCurrent (parse : ParseJson) (p : PreparedReview) (sent : Bool) (message : String) :
    Closure Unit := do
  let now ← attempt sent (current parse p.target)
  if now ≠ p.target then throw (.failed sent message)

def post (p : PreparedReview) (path : String) (body : Json) : Closure Response :=
  attempt true (request (MrAddress.fromTarget p.target) path "POST" (some body))

def requestChangesQuery : String :=
  "mutation($projectPath: ID!, $iid: String!) \x7b mergeRequestRequestChanges(input: \x7b " ++
    "projectPath: $projectPath, iid: $iid \x7d) \x7b errors mergeRequest \x7b iid \x7d \x7d \x7d"

/-- Whether a list of errors is given and not empty. -/
def hasErrors (j : Json) : Bool := j.asArray.any (! ·.isEmpty)

def requestChanges (parse : ParseJson) (p : PreparedReview) : Closure Unit := do
  let a := MrAddress.fromTarget p.target
  requireCurrent parse p false "MR changed before requesting changes"
  let r ← post p "graphql" (.obj [("query", .str requestChangesQuery),
    ("variables", .obj [("projectPath", .str a.project), ("iid", .str (toString a.number))])])
  if r.status ≠ 200 then
    throw (.failed true ("GitLab change request returned HTTP " ++ toString r.status))
  let body ← attempt true (.done ((parse r.body).mapError jsonError))
  let result := (body.get "data").get "mergeRequestRequestChanges"
  let iid := ((result.get "mergeRequest").get "iid").asStr.bind fun s => parseU64 s.toList
  if hasErrors (body.get "errors") ∨ hasErrors (result.get "errors") ∨ iid ≠ some a.number then
    throw (.failed true "GitLab did not confirm the change request")

/-- The loop over the comments; it returns the flag `sent`. -/
def sendComments (parse : ParseJson) (p : PreparedReview) :
    Bool → List PreparedComment → Closure Bool
  | sent, [] => return sent
  | sent, c :: cs => do
    requireCurrent parse p sent "MR changed during publication"
    match c.position with
    | none => throw (.failed sent "Frozen GitLab position is absent")
    | some position =>
      match parse position.toVec with
      -- The source panics here; `json!` unwraps.
      | .error _ => throw .panicked
      | .ok position =>
        let r ← post p ((MrAddress.fromTarget p.target).root ++ "/discussions")
          (.obj [("body", .str (postedBody p c)), ("position", position)])
        if r.status ≠ 201 then
          throw (.failed true ("GitLab rejected the comment with HTTP " ++ toString r.status))
        sendComments parse p true cs

def approve (parse : ParseJson) (p : PreparedReview) (sent : Bool) : Closure Unit := do
  requireCurrent parse p sent "MR changed before approval"
  let r ← post p ((MrAddress.fromTarget p.target).root ++ "/approve")
    (.obj [("sha", .str p.target.head)])
  if r.status ≠ 201 ∧ r.status ≠ 200 then
    throw (.failed true "GitLab approval did not confirm")

def sendSummary (parse : ParseJson) (p : PreparedReview) (sent : Bool) : Closure Json := do
  requireCurrent parse p sent "MR changed before review summary"
  let r ← post p ((MrAddress.fromTarget p.target).root ++ "/notes")
    (.obj [("body", .str (p.summary ++ marker p))])
  if r.status ≠ 201 then
    throw (.failed true ("GitLab summary write produced HTTP " ++ toString r.status))
  let n ← attempt true (.done ((parse r.body).mapError jsonError))
  match markedNote n with
  | none => throw (.failed true "Unverifiable GitLab summary")
  | some v => return v

/-- The closure of `send`. -/
def publish (parse : ParseJson) (p : PreparedReview) : Closure Json := do
  let mut sent := false
  if p.verdict = .requestChanges then
    requestChanges parse p
    sent := true
  sent ← sendComments parse p sent p.comments
  if p.verdict = .approve then
    approve parse p sent
    sent := true
  sendSummary parse p sent

/-- What `send` makes of the end of its closure; nothing for a panic. -/
def publishOutcome : Except Stop Json → Option SendOutcome
  | .ok v => some (.accepted v)
  | .error (.failed true e) => some (.unknown (e ++ ". Comments may exist remotely; " ++
      "inspect and reconcile before any resend."))
  | .error (.failed false _) => some (.rejected 422)
  | .error .panicked => none

/-- `GitlabWriter::send`. -/
def send (hashes : Hashes) (parse : ParseJson) (p : PreparedReview) : Talk (Option SendOutcome) :=
  if ¬ p.verify hashes (rules hashes) then .done (some (.rejected 422))
  else (publish parse p).run.bind fun end_ => .done (publishOutcome end_)

end Gitlab
end Diffz
