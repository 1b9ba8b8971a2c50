import Diffz.Core.Snapshot
import Diffz.Lib.JsonRead

/-!
# Reading snapshots back (`crates/core/src/domain.rs`, `patch.rs`, `review_details.rs`)

The readers of the stored types, field by field: which of them are required, which have a default,
and the two forms a path is taken in. A derived reader also takes a record as the array of its
fields; nothing the program writes has that form, and it is not here.

`Fits` are the widths of the source's integers: every value of the source's types has them.
-/

set_option autoImplicit false

namespace Diffz

/-! ## Patches -/

/-- `RepoPath`'s visitor: a string or an array of bytes. -/
def RepoPath.fromJson : Json → Option RepoPath
  | .str s => (RepoPath.new (asBytes s)).toOption
  | .arr items => (items.mapM (Json.asUint 8)).bind fun bytes =>
      (RepoPath.new (bytes.map UInt8.ofNat)).toOption
  | _ => none

def Side.fromJson : Json → Option Side
  | .str "Left" => some .left
  | .str "Right" => some .right
  | _ => none

def LineEnding.fromJson : Json → Option LineEnding
  | .str "Lf" => some .lf
  | .str "CrLf" => some .crLf
  | .str "None" => some .none
  | _ => none

def RowKind.fromJson : Json → Option RowKind
  | .str "Context" => some .context
  | .str "Added" => some .added
  | .str "Removed" => some .removed
  | _ => none

def ChangeKind.fromJson : Json → Option ChangeKind
  | .str "Added" => some .added
  | .str "Deleted" => some .deleted
  | .str "Modified" => some .modified
  | .str "Renamed" => some .renamed
  | .str "Copied" => some .copied
  | _ => none

def ContentKind.fromJson : Json → Option ContentKind
  | .str "Text" => some .text
  | .str "Binary" => some .binary
  | .str "Submodule" => some .submodule
  | _ => none

def PatchRow.fromJson (j : Json) : Option PatchRow := do
  let oldLine ← j.optional "old_line" (Json.asUint 32)
  let newLine ← j.optional "new_line" (Json.asUint 32)
  let text ← j.required "text" Json.asStr
  let ending ← j.required "ending" LineEnding.fromJson
  let kind ← j.required "kind" RowKind.fromJson
  return { oldLine, newLine, text, ending, kind }

def Hunk.fromJson (j : Json) : Option Hunk := do
  let oldStart ← j.required "old_start" (Json.asUint 32)
  let oldCount ← j.required "old_count" (Json.asUint 32)
  let newStart ← j.required "new_start" (Json.asUint 32)
  let newCount ← j.required "new_count" (Json.asUint 32)
  let sectionText ← j.required "section" Json.asStr
  let rows ← j.required "rows" (Json.asList PatchRow.fromJson)
  return { oldStart, oldCount, newStart, newCount, sectionText, rows }

def FileChange.fromJson (j : Json) : Option FileChange := do
  let id ← j.required "id" Json.asStr
  let oldPath ← j.optional "old_path" RepoPath.fromJson
  let newPath ← j.optional "new_path" RepoPath.fromJson
  let kind ← j.required "kind" ChangeKind.fromJson
  let content ← j.required "content" ContentKind.fromJson
  let oldMode ← j.optional "old_mode" Json.asStr
  let newMode ← j.optional "new_mode" Json.asStr
  let oldOid ← j.optional "old_oid" Json.asStr
  let newOid ← j.optional "new_oid" Json.asStr
  let hunks ← j.required "hunks" (Json.asList Hunk.fromJson)
  let metadata ← j.required "metadata" (Json.asList Json.asStr)
  return { id := ⟨id⟩, oldPath, newPath, kind, content, oldMode, newMode, oldOid, newOid, hunks
           metadata }

def PatchReport.fromJson (j : Json) : Option PatchReport := do
  let files ← j.required "files" (Json.asList FileChange.fromJson)
  return { files }

/-! ## Targets -/

def RepositoryKey.fromJson (j : Json) : Option RepositoryKey := do
  let host ← j.required "host" Json.asStr
  let id ← j.required "id" (Json.asUint 64)
  let owner ← j.required "owner" Json.asStr
  let name ← j.required "name" Json.asStr
  return { host, id, owner, name }

def CompareRefs.fromJson (j : Json) : Option CompareRefs := do
  let base ← j.required "base" Json.asStr
  let head ← j.required "head" Json.asStr
  let direct ← j.required "direct" Json.asBool
  return { base, head, direct }

def EntireTarget.fromJson (j : Json) : Option EntireTarget := do
  let forge ← j.required "forge" Json.asStr
  let repositoryId ← j.required "repository_id" Json.asStr
  let placementId ← j.required "placement_id" Json.asStr
  let changeId ← j.required "change_id" Json.asStr
  let apiOrigin ← j.required "api_origin" Json.asStr
  let address ← j.required "address" Json.asStr
  let projectTrailId ← j.optional "project_trail_id" Json.asStr
  return { forge, repositoryId, placementId, changeId, apiOrigin, address, projectTrailId }

def RemoteTarget.fromJson (j : Json) : Option RemoteTarget := do
  let provider ← j.orDefault "provider" (fun v => v.asStr.map ProviderId.mk) .github
  let repository ← j.required "repository" RepositoryKey.fromJson
  let account ← j.required "account" Json.asStr
  let pr ← j.required "pr" (Json.asUint 64)
  let targetTip ← j.required "target_tip" Json.asStr
  let comparisonBase ← j.required "comparison_base" Json.asStr
  let head ← j.required "head" Json.asStr
  let isOpen ← j.required "open" Json.asBool
  let draft ← j.orDefault "draft" Json.asBool false
  let merged ← j.orDefault "merged" Json.asBool false
  let pendingReview ← j.required "pending_review" Json.asBool
  let compare ← j.optional "compare" CompareRefs.fromJson
  let entire ← j.optional "entire" EntireTarget.fromJson
  return { provider, repository, account, pr, targetTip, comparisonBase, head, isOpen, draft, merged
           pendingReview, compare, entire }

/-! ## Review details -/

def ReviewDecision.fromJson : Json → Option ReviewDecision
  | .str "Approved" => some .approved
  | .str "ChangesRequested" => some .changesRequested
  | _ => none

def Check.fromJson (j : Json) : Option Check := do
  let name ← j.required "name" Json.asStr
  let kind ← j.required "kind" Json.asStr
  let status ← j.required "status" Json.asStr
  let conclusion ← j.optional "conclusion" Json.asStr
  let url ← j.optional "url" Json.asStr
  return { name, kind, status, conclusion, url }

def ConversationComment.fromJson (j : Json) : Option ConversationComment := do
  let id ← j.required "id" (Json.asUint 64)
  let author ← j.required "author" Json.asStr
  let body ← j.required "body" Json.asStr
  let createdAt ← j.optional "created_at" Json.asStr
  return { id, author, body, createdAt }

def ReleaseFile.fromJson (j : Json) : Option ReleaseFile := do
  let path ← j.required "path" Json.asStr
  let additions ← j.required "additions" (Json.asUint 64)
  let deletions ← j.required "deletions" (Json.asUint 64)
  let previous ← j.optional "previous" Json.asStr
  return { path, additions, deletions, previous }

def Release.fromJson (j : Json) : Option Release := do
  let tag ← j.optional "tag" Json.asStr
  let commit ← j.required "commit" Json.asStr
  let date ← j.optional "date" Json.asStr
  let commits ← j.required "commits" (Json.asUint 64)
  let files ← j.required "files" (Json.asList ReleaseFile.fromJson)
  let notes ← j.optional "notes" Json.asStr
  let url ← j.optional "url" Json.asStr
  let shas ← j.orDefault "shas" (Json.asList Json.asStr) []
  return { tag, commit, date, commits, files, notes, url, shas }

def Blamed.fromJson (j : Json) : Option Blamed := do
  let start ← j.required "start" (Json.asUint 32)
  let stop ← j.required "end" (Json.asUint 32)
  let release ← j.required "release" (Json.asUint 64)
  let commit ← j.required "commit" Json.asStr
  return { start, stop, release, commit }

/-- `BTreeMap<String, Option<Vec<Blamed>>>`; the last entry of a path counts. -/
def BlameRead.fromJson : Json → Option BlameRead
  | .obj fields => do
    let entries ← fields.mapM fun f =>
      (Json.asOption (Json.asList Blamed.fromJson) f.2).map fun ranges => (f.1, ranges)
    return .ofList entries
  | _ => none

def Overview.fromJson (j : Json) : Option Overview := do
  let description ← j.optional "description" Json.asStr
  let author ← j.optional "author" Json.asStr
  let decision ← j.optional "decision" ReviewDecision.fromJson
  let checks ← j.required "checks" (Json.asList Check.fromJson)
  let notices ← j.required "notices" (Json.asList Json.asStr)
  let capturedAt ← j.optional "captured_at" (Json.asUint 64)
  let conversation ← j.required "conversation" (Json.asList ConversationComment.fromJson)
  let releases ← j.orDefault "releases" (Json.asList Release.fromJson) []
  let blame ← j.orDefault "blame" BlameRead.fromJson .empty
  return { description, author, decision, checks, notices, capturedAt, conversation, releases, blame }

/-! ## Snapshots -/

def ThreadComment.fromJson (j : Json) : Option ThreadComment := do
  let id ← j.required "id" (Json.asUint 64)
  let rootId ← j.required "root_id" (Json.asUint 64)
  let path ← j.required "path" Json.asStr
  let side ← j.optional "side" Side.fromJson
  let line ← j.optional "line" (Json.asUint 32)
  let startLine ← j.optional "start_line" (Json.asUint 32)
  let fileLevel ← j.optional "file_level" Json.asBool
  let body ← j.required "body" Json.asStr
  let author ← j.required "author" Json.asStr
  let commitId ← j.required "commit_id" Json.asStr
  let createdAt ← j.optional "created_at" Json.asStr
  return { id, rootId, path, side, line, startLine, fileLevel, body, author, commitId, createdAt }

def Snapshot.fromJson (j : Json) : Option Snapshot := do
  let id ← j.required "id" Json.asStr
  let title ← j.required "title" Json.asStr
  let origin ← j.required "origin" Json.asStr
  let patch ← j.required "patch" PatchReport.fromJson
  let remote ← j.optional "remote" RemoteTarget.fromJson
  let comments ← j.required "comments" (Json.asList ThreadComment.fromJson)
  let overview ← j.orDefault "overview" Overview.fromJson .empty
  let warnings ← j.required "warnings" (Json.asList Json.asStr)
  return { id := ⟨id⟩, title, origin, patch, remote, comments, overview, warnings }

/-- The bytes a snapshot is stored as; `legacy` is the form of the paths. -/
def Snapshot.toVec (legacy : Bool) (s : Snapshot) : Bytes := Json.toVec (s.toJson legacy)

/-- `serde_json::from_slice`, with `parse` for the text. -/
def Snapshot.fromSlice (parse : Bytes → Option Json) (bytes : Bytes) : Option Snapshot :=
  (parse bytes).bind Snapshot.fromJson

/-! ## Widths -/

open Json (InWidth)

def PatchRow.Fits (r : PatchRow) : Prop :=
  (∀ n ∈ r.oldLine, InWidth 32 n) ∧ ∀ n ∈ r.newLine, InWidth 32 n

def Hunk.Fits (h : Hunk) : Prop :=
  InWidth 32 h.oldStart ∧ InWidth 32 h.oldCount ∧ InWidth 32 h.newStart ∧ InWidth 32 h.newCount ∧
    ∀ r ∈ h.rows, r.Fits

def PatchReport.Fits (p : PatchReport) : Prop := ∀ f ∈ p.files, ∀ h ∈ f.hunks, h.Fits

def RemoteTarget.Fits (t : RemoteTarget) : Prop := InWidth 64 t.repository.id ∧ InWidth 64 t.pr

def ThreadComment.Fits (c : ThreadComment) : Prop :=
  InWidth 64 c.id ∧ InWidth 64 c.rootId ∧ (∀ n ∈ c.line, InWidth 32 n) ∧ ∀ n ∈ c.startLine, InWidth 32 n

def ReleaseFile.Fits (f : ReleaseFile) : Prop := InWidth 64 f.additions ∧ InWidth 64 f.deletions

def Release.Fits (r : Release) : Prop := InWidth 64 r.commits ∧ ∀ f ∈ r.files, f.Fits

def Blamed.Fits (b : Blamed) : Prop := InWidth 32 b.start ∧ InWidth 32 b.stop ∧ InWidth 64 b.release

structure Overview.Fits (o : Overview) : Prop where
  capturedAt : ∀ n ∈ o.capturedAt, InWidth 64 n
  conversation : ∀ c ∈ o.conversation, InWidth 64 c.id
  releases : ∀ r ∈ o.releases, r.Fits
  blame : ∀ e ∈ o.blame.entries, ∀ ranges ∈ e.2, ∀ b ∈ ranges, b.Fits

structure Snapshot.Fits (s : Snapshot) : Prop where
  patch : s.patch.Fits
  remote : ∀ t ∈ s.remote, t.Fits
  comments : ∀ c ∈ s.comments, c.Fits
  overview : s.overview.Fits

end Diffz
