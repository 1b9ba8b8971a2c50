import Mathlib.Data.List.Dedup
import Diffz.Adapters.Writers
import Diffz.Lib.Moments

/-!
# Capturing a review (`GithubReader::snapshot` and `GitlabReader::snapshot`)

A snapshot takes many requests, and the review may move between them. GitHub's is read by several
threads at once, between two reads of the pull request, and again while these two differ; GitLab's is
read by one thread between two reads of its target.

The threads of a scope take turns, and `order` says how for each scope: it is an argument, as the
reader of JSON text (`parse`), the hash functions and the clock (`now`) are. A thread that panics is
left out.
-/

set_option autoImplicit false

namespace Diffz

/-- `AdapterError::Patch`. -/
def PatchError.text : PatchError → String
  | .malformed line message =>
    "patch cannot be loaded: patch line " ++ toString line ++ " is malformed: " ++ message
  | .unsupported what => "patch cannot be loaded: unsupported patch format: " ++ what
  | .limit what => "patch cannot be loaded: patch exceeds safety limit: " ++ what

/-- `Snapshot::with_origin`. -/
def Snapshot.withOrigin (hashes : Hashes) (title : String) (patch : PatchReport)
    (remote : Option RemoteTarget) (comments : List ThreadComment) (origin : String) : Snapshot where
  id := identity hashes patch remote origin
  title := title
  origin := origin
  patch := patch
  remote := remote
  comments := comments
  overview := .empty
  warnings := []

/-- `Snapshot::new`. -/
def Snapshot.new (hashes : Hashes) (title : String) (patch : PatchReport)
    (remote : Option RemoteTarget) (comments : List ThreadComment) : Snapshot :=
  withOrigin hashes title patch remote comments "patch-bytes"

/-- The path of a file where it is text; `path().utf8().ok()`. -/
def FileChange.textPath (f : FileChange) : Option String := f.path.bind fun p => p.utf8.toOption

namespace Http

abbrev Reading := ExceptT String Talk

/-! ## Pages -/

/-- A list that is read page after page: what a page is asked with, how large it is and what is in
it, and the limits. -/
structure Pager where
  ask : String → Talk (Except String (Nat × Except String (List Json)))
  pages : Nat
  cap : Nat
  tooLarge : String
  ended : String

/-- The endpoint of a page. -/
def pageOf (endpoint : String) (page : Nat) : String :=
  endpoint ++ (if hasText endpoint.toList "?" then "&" else "?") ++ "per_page=100&page=" ++
    toString page

/-- The loop over the pages. The first one that is not full is the last. -/
def Pager.loop (p : Pager) (endpoint : String) : Nat → Nat → Nat → List Json → Reading (List Json)
  | 0, _, _, _ => throw p.ended
  | left + 1, page, bytes, all => do
    let (size, items) ← .mk (p.ask (pageOf endpoint page))
    if p.cap < bytes + size then throw p.tooLarge
    let items ← .mk (.done items)
    if items.length < 100 then return all ++ items
    else p.loop endpoint left (page + 1) (bytes + size) (all ++ items)

def Pager.all (p : Pager) (endpoint : String) : Reading (List Json) :=
  p.loop endpoint p.pages 1 0 []

end Http

open Http (Request Response Reply Talk Reading Pager)

/-! ## GitHub -/

namespace Github

/-- The headers of a read. -/
def acceptJson : String := "Accept: application/vnd.github+json"

def acceptDiff : String := "Accept: application/vnd.github.diff"

/-- What `get_json` makes of the answer. -/
def jsonReply (parse : ParseJson) : Reply → Except String Json
  | .error e => .error e
  | .ok r =>
    if r.status ≠ 200 then .error ("GitHub read failed with HTTP " ++ toString r.status ++
      "; no credentials or content were logged")
    else (parse r.body).mapError Gitlab.jsonError

/-- `GithubReader::get_json`. -/
def getJson (parse : ParseJson) (host endpoint : String) : Talk (Except String Json) :=
  (request host endpoint "GET" none acceptJson).bind fun r => .done (jsonReply parse r)

/-- A page, which `items` takes apart. -/
def askPage (parse : ParseJson) (host : String) (items : Json → Except String (List Json))
    (endpoint : String) : Talk (Except String (Nat × Except String (List Json))) :=
  (getJson parse host endpoint).bind fun v => .done (v.map fun v => (v.toVec.length, items v))

def arrayOf (message : String) (v : Json) : Except String (List Json) :=
  match v.asArray with
  | some items => .ok items
  | none => .error message

/-- `GithubReader::pages`. -/
def pages (parse : ParseJson) (host endpoint : String) : Reading (List Json) :=
  Pager.all
    { ask := askPage parse host (arrayOf "expected GitHub array page"), pages := 100
      cap := 64 * 1024 * 1024
      tooLarge := "paged GitHub data passed 64 MiB, so completeness is not guaranteed"
      ended := "GitHub pagination limit reached; truncated responses are never accepted" } endpoint

/-- `GithubReader::named_pages`. -/
def namedPages (parse : ParseJson) (host endpoint field : String) : Reading (List Json) :=
  Pager.all
    { ask := askPage parse host fun v => arrayOf "missing check metadata collection" (v.get field)
      pages := 10, cap := 16 * 1024 * 1024, tooLarge := "check metadata exceeds 16 MiB"
      ended := "check metadata exceeds 1,000 entries" } endpoint

/-- `oid`. -/
def oid (v : Json) (names : List String) : Except String String := do
  let s ← text v names
  if ¬ ((asBytes s).length = 40 ∨ (asBytes s).length = 64) ∨
      ¬ (asBytes s).all Gitlab.isAsciiHexdigit then
    .error "the object ID GitHub sent is not valid"
  else return asciiLower s

/-- `is_merged`. A merged pull request is closed, with `merged` set. -/
def isMerged (m : Json) : Bool := (m.get "merged").isTrue || (m.get "merged_at").asStr.isSome

/-- `target`. -/
def target (a : PrAddress) (m : Json) (account comparisonBase : String) :
    Except String RemoteTarget := do
  let owner ← text m ["base", "repo", "owner", "login"]
  let name ← text m ["base", "repo", "name"]
  if asciiLower owner ≠ asciiLower a.owner ∨ asciiLower name ≠ asciiLower a.repo then
    .error "the repository moved to another identity; open the PR at its canonical URL"
  else do
    let id ← number m ["base", "repo", "id"]
    let targetTip ← oid m ["base", "sha"]
    let head ← oid m ["head", "sha"]
    return { provider := .github, repository := ⟨a.host, id, owner, name⟩, account, pr := a.number
             targetTip, comparisonBase, head, isOpen := (m.get "state").isStr "open"
             draft := (m.get "draft").isTrue, merged := isMerged m, pendingReview := false
             compare := none, entire := none }

/-- `check_row`. -/
def checkRow (v : Json) (kind : String) : Check :=
  let legacy := decide (kind = "Status")
  let state := (v.get "state").asStr.getD "unknown"
  { name := (v.get (if legacy then "context" else "name")).asStr.getD "Unnamed check"
    kind := kind
    status :=
      if legacy then (if state = "pending" then "queued" else "completed")
      else (v.get "status").asStr.getD "unknown"
    conclusion := if legacy then some state else (v.get "conclusion").asStr
    url := (v.get (if legacy then "target_url" else "html_url")).asStr.filter fun u =>
      startsWith u.toList "https://" }

/-- A comment of the conversation. -/
def conversationRow (v : Json) : Option ConversationComment := do
  let id ← (v.get "id").asU64
  let author ← ((v.get "user").get "login").asStr
  let body ← (v.get "body").asStr
  return { id, author, body, createdAt := (v.get "created_at").asStr }

/-- The rows of one kind of check, or a notice. -/
def addChecks (overview : Overview) (kind : String) : Except String (List Json) → Overview
  | .ok rows => { overview with checks := overview.checks ++ rows.map fun v => checkRow v kind }
  | .error e =>
    { overview with notices := overview.notices ++ [kind ++ " metadata unavailable: " ++ e] }

/-- `GithubReader::overview`, of what the threads of its scope return. -/
def overviewOf (now : Nat) (m : Json)
    (runs workflows statuses conversation : Except String (List Json)) : Overview :=
  let overview := { Overview.empty with
    description := (m.get "body").asStr, author := ((m.get "user").get "login").asStr
    capturedAt := some now }
  let overview := addChecks (addChecks (addChecks overview "Check" runs) "Workflow" workflows)
    "Status" statuses
  match conversation with
  | .ok rows => { overview with conversation := rows.filterMap conversationRow }
  | .error e =>
    { overview with notices := overview.notices ++ ["Conversation unavailable: " ++ e] }

/-- `GithubReader::overview`. -/
def overview (parse : ParseJson) (now : Nat) (order : Nat → List Bool) (a : PrAddress) (m : Json)
    (head : String) : Talk Overview :=
  let repo := "repos/" ++ a.owner ++ "/" ++ a.repo
  (Dialogue.turns (order 0)
    (pages parse a.host (repo ++ "/issues/" ++ toString a.number ++ "/comments")).run
    (Dialogue.turns (order 1)
      (namedPages parse a.host (repo ++ "/commits/" ++ head ++ "/check-runs") "check_runs").run
      (Dialogue.turns (order 2)
        (namedPages parse a.host (repo ++ "/actions/runs?head_sha=" ++ head) "workflow_runs").run
        (namedPages parse a.host (repo ++ "/commits/" ++ head ++ "/status") "statuses").run))).bind
    fun (conversation, runs, workflows, statuses) =>
      .done (overviewOf now m runs workflows statuses conversation)

/-- What the threads of the large scope return. -/
structure Parts where
  compare : Except String Json
  files : Except String (List Json)
  raw : Reply
  comments : Except String (List Json)
  reviews : Except String (List Json)
  overview : Overview

/-- The large scope of `GithubReader::snapshot`. -/
def parts (parse : ParseJson) (now : Nat) (order : Nat → List Bool) (a : PrAddress) (m : Json)
    (base head : String) : Talk Parts :=
  (Dialogue.turns (order 3) (getJson parse a.host
      ("repos/" ++ a.owner ++ "/" ++ a.repo ++ "/compare/" ++ base ++ "..." ++ head))
    (Dialogue.turns (order 4) (pages parse a.host (a.root ++ "/files")).run
      (Dialogue.turns (order 5) (request a.host a.root "GET" none acceptDiff)
        (Dialogue.turns (order 6) (pages parse a.host (a.root ++ "/comments")).run
          (Dialogue.turns (order 7) (pages parse a.host (a.root ++ "/reviews")).run
            (overview parse now order a m head)))))).bind
    fun (compare, files, raw, comments, reviews, overview) =>
      .done ⟨compare, files, raw, comments, reviews, overview⟩

/-- What an attempt has read before the pull request is read again. -/
structure Gathered where
  remote : RemoteTarget
  files : List Json
  fromFiles : Bool
  patch : PatchReport
  comments : List Json
  reviews : List Json
  overview : Overview

/-- The body of the diff. It ends at 300 files, and then the files have the hunks. -/
def diffBody (raw : Response) (files : List Json) : Except String Bytes :=
  if raw.status = 200 then .ok raw.body
  else if raw.status = 406 then .ok (patchFromFiles files)
  else .error ("GitHub diff failed (HTTP " ++ toString raw.status ++
    "); the existing session stays as is")

def gather (hashes : Hashes) (a : PrAddress) (before : Json) (account : String) (p : Parts) :
    Except String Gathered := do
  let compare ← p.compare
  let remote ← target a before account (← oid compare ["merge_base_commit", "sha"])
  let files ← p.files
  let raw ← p.raw
  let body ← diffBody raw files
  let patch ← (parsePatch hashes.sha256 body .default).mapError PatchError.text
  let comments ← p.comments
  let reviews ← p.reviews
  let pending := reviews.any fun r =>
    (r.get "state").isStr "PENDING" && ((r.get "user").get "login").isStr account
  return { remote := { remote with pendingReview := pending }, files
           fromFiles := decide (raw.status = 406), patch, comments, reviews, overview := p.overview }

/-- A review in the conversation, where it has a text. -/
def reviewRow (v : Json) : Option ConversationComment := do
  let body ← (v.get "body").asStr.filter fun body => trim body ≠ ""
  let id ← (v.get "id").asU64
  let author ← ((v.get "user").get "login").asStr
  return { id, author, body, createdAt := (v.get "submitted_at").asStr }

/-- GitHub left out the text of the file. -/
def omitsText (f : Json) : Bool :=
  (match f.get "patch" with
    | .null => true
    | _ => false) && decide (0 < (f.get "changes").asU64.getD 0)

def omittedWarning (files : List Json) : String :=
  "GitHub serves no unified diff past 300 files. This review then comes via the per-file " ++
    "endpoint, and GitHub had already omitted the text for " ++
    toString (files.filter omitsText).length ++ " of those files."

/-- The text of the file is in the patch, or it has none. -/
def hasCaptured (patch : PatchReport) (name : String) : Bool :=
  patch.files.any fun p => p.textPath = some name ∧ (p.hunks ≠ [] ∨ p.content ≠ .text)

/-- The warnings of a snapshot of which the metadata counts `expected` files. -/
def coverage (g : Gathered) (expected : Nat) : List String :=
  let listed := g.files.filterMap fun f => (f.get "filename").asStr
  let actual := g.patch.files.filterMap FileChange.textPath
  (if g.fromFiles then [omittedWarning g.files] else []) ++
  (if expected ≠ g.files.length ∨ expected ≠ g.patch.files.length then
    ["coverage disagreement: metadata " ++ toString expected ++ ", file count " ++
      toString g.files.length ++ ", patch count " ++ toString g.patch.files.length]
  else []) ++
  (if ¬ (listed ⊆ actual ∧ actual ⊆ listed) then
    ["file paths from the provider disagree with the canonical patch paths"]
  else []) ++
  ((g.files.filter omitsText).map fun f => (f.get "filename").asStr.getD "").filterMap fun name =>
    if hasCaptured g.patch name then none else some ("provider omitted text for " ++ name)

/-- The end of an attempt, where the pull request did not move. -/
def finish (hashes : Hashes) (a : PrAddress) (account : String) (g : Gathered) (after : Json)
    (still : Except String String) : Except String Snapshot := do
  let remote := { g.remote with
    isOpen := (after.get "state").isStr "open", draft := (after.get "draft").isTrue
    merged := isMerged after }
  let still ← still
  if still ≠ account then .error "the GitHub account changed while the snapshot was captured"
  else do
    let title ← text after ["title"]
    let comments ← g.comments.mapM thread
    let s := Snapshot.new hashes
      (title ++ " · " ++ a.owner ++ "/" ++ a.repo ++ " #" ++ toString a.number) g.patch (some remote)
      comments
    let expected ← number after ["changed_files"]
    let decision := reviewDecision (g.reviews.filterMap fun r => do
      return (← ((r.get "user").get "login").asStr, ← (r.get "state").asStr))
    return { s with
      overview := { g.overview with
        description := (after.get "body").asStr
        author := ((after.get "user").get "login").asStr
        decision := decision
        conversation := g.overview.conversation ++ g.reviews.filterMap reviewRow }
      warnings := coverage g expected }

/-- Whether `/base/repo/id` is one value, which is to have one text. -/
def sameRepository (before after : Json) : Bool :=
  (pointer before ["base", "repo", "id"]).toVec = (pointer after ["base", "repo", "id"]).toVec

/-- `GithubReader::account`. -/
def account (parse : ParseJson) (host : String) : Talk (Except String String) :=
  (getJson parse host "user").bind fun v => .done (v.bind fun v => text v ["login"])

/-- `first.take()`, or else another read. -/
def metadata (parse : ParseJson) (a : PrAddress) : Option Json → Reading Json
  | some m => pure m
  | none => .mk (getJson parse a.host a.root)

/-- The attempts of `GithubReader::snapshot`. -/
def attempts (hashes : Hashes) (parse : ParseJson) (now : Nat) (order : Nat → Nat → List Bool)
    (a : PrAddress) (account : String) : Nat → Option Json → Reading Snapshot
  | 0, _ =>
    throw "the PR moved throughout the snapshot attempt; the old session and its drafts are kept"
  | left + 1, first => do
    let before ← metadata parse a first
    let base ← .mk (.done (oid before ["base", "sha"]))
    let head ← .mk (.done (oid before ["head", "sha"]))
    let p ← ExceptT.lift (parts parse now (order left) a before base head)
    let g ← .mk (.done (gather hashes a before account p))
    let (after, still) ← ExceptT.lift (Dialogue.turns (order left 8) (getJson parse a.host a.root)
      (Github.account parse a.host))
    let after ← .mk (.done after)
    let afterBase ← .mk (.done (oid after ["base", "sha"]))
    let afterHead ← .mk (.done (oid after ["head", "sha"]))
    if base ≠ afterBase ∨ head ≠ afterHead ∨ ¬ sameRepository before after then
      attempts hashes parse now order a account left none
    else .mk (.done (finish hashes a account g after still))

/-- `GithubReader::snapshot`. -/
def snapshot (hashes : Hashes) (parse : ParseJson) (now : Nat) (order : Nat → Nat → List Bool)
    (a : PrAddress) : Reading Snapshot := do
  let (account, first) ← ExceptT.lift (Dialogue.turns (order 3 0) (Github.account parse a.host)
    (getJson parse a.host a.root))
  let account ← .mk (.done account)
  let first ← .mk (.done first)
  attempts hashes parse now order a account 3 (some first)

end Github

/-! ## GitLab -/

namespace Gitlab

/-- What `pages` makes of the answer for a page. That a page is a list is told by the reader of JSON
text. -/
def pageReply (parse : ParseJson) : Reply → Except String (Nat × Except String (List Json))
  | .error e => .error e
  | .ok r =>
    if r.status ≠ 200 then .error ("GitLab list returned HTTP " ++ toString r.status)
    else .ok (r.body.length, ((parse r.body).mapError jsonError).bind
      (Github.arrayOf (jsonError "expected a sequence")))

/-- `GitlabReader::pages`. -/
def pages (parse : ParseJson) (a : MrAddress) (path : String) : Reading (List Json) :=
  Pager.all
    { ask := fun path => (request a path "GET" none).bind fun r => .done (pageReply parse r)
      pages := 30, cap := 16 * 1024 * 1024, tooLarge := "GitLab collection is over the 16 MiB cap"
      ended := "GitLab collection is over the 3000-item cap" } path

/-- `GitlabReader::target`. -/
def readTarget (parse : ParseJson) (a : MrAddress) : Reading RemoteTarget := do
  let m ← .mk (get parse a a.root)
  let user ← .mk (get parse a "user")
  .mk (.done (target a m user))

/-- The path of a record: the old one where the patch does not show the new one. -/
def recordPath (shown : List String) (f : Json) : String :=
  let new := (f.get "new_path").asStr.getD ""
  if new ∈ shown then new else (f.get "old_path").asStr.getD ""

/-- The records of the files are those of the patch, and none of them is cut. -/
def everyFile (patch : PatchReport) (files : List Json) : Bool :=
  let shown := patch.files.filterMap FileChange.displayPath
  let listed := files.map (recordPath shown)
  decide (files.length = patch.files.length) &&
    decide (listed.dedup.length = shown.dedup.length) && listed.all (· ∈ shown) &&
    ! files.any fun f => (f.get "too_large").isTrue || (f.get "collapsed").isTrue

/-- `check`. -/
def checkRow (v : Json) (kind : String) : Check :=
  let status := (v.get "status").asStr.getD "unknown"
  let conclusion :=
    if status = "success" then some "success"
    else if status = "failed" then some "failure"
    else if status = "canceled" then some "cancelled"
    else if status = "skipped" then some "skipped"
    else none
  { name := (v.get "name").asStr.getD ("Pipeline #" ++ String.ofList (v.get "id").render)
    kind := kind, status := if conclusion.isSome then "completed" else status
    conclusion := conclusion
    url := (v.get "web_url").asStr.filter fun u => startsWith u.toList "https://" }

/-- The loop over the pipelines, with their jobs. -/
def addPipelines (parse : ParseJson) (a : MrAddress) (t : RemoteTarget) :
    List Json → Overview → Talk Overview
  | [], overview => .done overview
  | p :: rest, overview =>
    if 500 ≤ overview.checks.length then .done overview
    else
      let overview := { overview with checks := overview.checks ++ [checkRow p "Pipeline"] }
      match (p.get "id").asU64 with
      | none => addPipelines parse a t rest overview
      | some id =>
        (pages parse a ("projects/" ++ toString t.repository.id ++ "/pipelines/" ++ toString id ++
          "/jobs")).run.bind fun
          | .ok jobs => addPipelines parse a t rest { overview with
              checks := overview.checks ++ jobs.map fun j => checkRow j "Job" }
          | .error e => addPipelines parse a t rest { overview with
              notices := overview.notices ++ [e] }

/-- The pipelines of the revision. -/
def pipelines (parse : ParseJson) (a : MrAddress) (t : RemoteTarget) (overview : Overview) :
    Talk Overview :=
  (pages parse a (a.root ++ "/pipelines")).run.bind fun
    | .error e => .done { overview with notices := overview.notices ++ [e] }
    | .ok all =>
      let own := all.filter fun p => (p.get "sha").isStr t.head
      let overview := if 10 < own.length then { overview with
        notices := overview.notices ++
          ["Only the newest 10 pipelines for this revision are shown."] } else overview
      addPipelines parse a t (own.take 10) overview

def approved (approvals : Except String Json) : Bool :=
  match approvals with
  | .ok v => (v.get "approved_by").asArray.any fun users => ! users.isEmpty
  | .error _ => false

def requestedChanges (reviewers : Except String Json) : Bool :=
  match reviewers with
  | .ok v => v.asArray.any fun users => users.any fun u => (u.get "state").isStr "requested_changes"
  | .error _ => false

/-- The overview before the discussions are read into it. -/
def overviewOf (now : Nat) (m : Json) (approvals reviewers : Except String Json) : Overview :=
  { Overview.empty with
    description := (m.get "description").asStr
    author := ((m.get "author").get "username").asStr
    decision :=
      if requestedChanges reviewers then some .changesRequested
      else if approved approvals then some .approved
      else none
    capturedAt := some now }

/-- A comment on another revision has no line here. -/
def placed (t : RemoteTarget) (c : ThreadComment) : ThreadComment :=
  if c.commitId ≠ t.head then { c with line := none, startLine := none } else c

/-- `GitlabReader::snapshot`. -/
def snapshot (hashes : Hashes) (parse : ParseJson) (now : Nat) (a : MrAddress) :
    Reading Snapshot := do
  let m ← .mk (get parse a a.root)
  let user ← .mk (get parse a "user")
  let t ← .mk (.done (target a m user))
  let response ← .mk (request a (a.root ++ "/raw_diffs") "GET" none)
  if response.status ≠ 200 then throw ("GitLab diff returned HTTP " ++ toString response.status)
  let patch ← .mk (.done ((parsePatch hashes.sha256 response.body .default).mapError
    PatchError.text))
  let files ← pages parse a (a.root ++ "/diffs")
  if ¬ everyFile patch files then
    throw "GitLab did not provide every diff file; review was refused"
  let discussions ← pages parse a (a.root ++ "/discussions")
  let approvals ← ExceptT.lift (get parse a (a.root ++ "/approvals"))
  let reviewers ← ExceptT.lift (get parse a (a.root ++ "/reviewers"))
  let (comments, overview) := discussionComments discussions
    (overviewOf now m approvals reviewers)
  let overview ← ExceptT.lift (pipelines parse a t overview)
  let current ← readTarget parse a
  if current ≠ t then
    throw "The merge request or account changed during loading; open it again"
  let s := Snapshot.withOrigin hashes
    ((m.get "title").asStr.getD "Merge request" ++ " · " ++ a.project ++ " !" ++ toString a.number)
    patch (some t) (comments.map (placed t))
    ("gitlab:" ++ a.host ++ ":" ++ a.project ++ "!" ++ toString a.number)
  return { s with overview }

end Gitlab
end Diffz
