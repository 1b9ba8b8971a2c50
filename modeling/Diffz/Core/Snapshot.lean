import Diffz.Core.Patch
import Diffz.Core.ReviewDetails

/-!
# Snapshots and drafts (`crates/core/src/domain.rs`)

A snapshot is a frozen patch with the review target it came from; its id is a digest of both. A
draft is a comment in the making, on lines or on a whole file of one snapshot.

The digests are taken over JSON, so the serialised forms are here as well, field by field in the
order of the source. `Hashes` are the two hash functions of the crates the program links.
-/

set_option autoImplicit false

namespace Diffz

/-- The hash functions of `sha2` and `sha1`. -/
structure Hashes where
  sha256 : Bytes → Bytes
  sha1 : Bytes → Bytes

/-! ## Serialised forms -/

def Side.toJson : Side → Json
  | .left => .str "Left"
  | .right => .str "Right"

def LineEnding.toJson : LineEnding → Json
  | .lf => .str "Lf"
  | .crLf => .str "CrLf"
  | .none => .str "None"

def RowKind.toJson : RowKind → Json
  | .context => .str "Context"
  | .added => .str "Added"
  | .removed => .str "Removed"

def ChangeKind.toJson : ChangeKind → Json
  | .added => .str "Added"
  | .deleted => .str "Deleted"
  | .modified => .str "Modified"
  | .renamed => .str "Renamed"
  | .copied => .str "Copied"

def ContentKind.toJson : ContentKind → Json
  | .text => .str "Text"
  | .binary => .str "Binary"
  | .submodule => .str "Submodule"

def PatchRow.toJson (r : PatchRow) : Json :=
  .obj [("old_line", .ofNat? r.oldLine), ("new_line", .ofNat? r.newLine), ("text", .str r.text),
    ("ending", r.ending.toJson), ("kind", r.kind.toJson)]

def Hunk.toJson (h : Hunk) : Json :=
  .obj [("old_start", .num h.oldStart), ("old_count", .num h.oldCount),
    ("new_start", .num h.newStart), ("new_count", .num h.newCount),
    ("section", .str h.sectionText), ("rows", .arr (h.rows.map PatchRow.toJson))]

/-- A path under `with_legacy_path_encoding`: the array of its bytes. -/
def RepoPath.legacyJson (p : RepoPath) : Json := .arr (p.bytes.map fun b => .num b.toNat)

/-- A path, a string when the bytes are UTF-8; `legacy` is the flag `LEGACY_PATH_ENCODING`. -/
def RepoPath.toJson (legacy : Bool) (p : RepoPath) : Json :=
  match fromUtf8 p.bytes with
  | some text => if legacy then p.legacyJson else .str text
  | none => p.legacyJson

def FileChange.toJson (legacy : Bool) (f : FileChange) : Json :=
  .obj [("id", .str f.id.val), ("old_path", (f.oldPath.map (RepoPath.toJson legacy)).getD .null),
    ("new_path", (f.newPath.map (RepoPath.toJson legacy)).getD .null), ("kind", f.kind.toJson),
    ("content", f.content.toJson), ("old_mode", .ofStr? f.oldMode),
    ("new_mode", .ofStr? f.newMode), ("old_oid", .ofStr? f.oldOid), ("new_oid", .ofStr? f.newOid),
    ("hunks", .arr (f.hunks.map Hunk.toJson)), ("metadata", .arr (f.metadata.map Json.str))]

def PatchReport.toJson (legacy : Bool) (r : PatchReport) : Json :=
  .obj [("files", .arr (r.files.map (FileChange.toJson legacy)))]

def PatchReport.legacyJson (r : PatchReport) : Json := r.toJson true

def RepositoryKey.toJson (r : RepositoryKey) : Json :=
  .obj [("host", .str r.host), ("id", .num r.id), ("owner", .str r.owner), ("name", .str r.name)]

def CompareRefs.toJson (c : CompareRefs) : Json :=
  .obj [("base", .str c.base), ("head", .str c.head), ("direct", .bool c.direct)]

def EntireTarget.toJson (e : EntireTarget) : Json :=
  .obj ([("forge", .str e.forge), ("repository_id", .str e.repositoryId),
    ("placement_id", .str e.placementId), ("change_id", .str e.changeId),
    ("api_origin", .str e.apiOrigin), ("address", .str e.address)] ++
    skipNone "project_trail_id" (e.projectTrailId.map Json.str))

def RemoteTarget.toJson (t : RemoteTarget) : Json :=
  .obj (skipNone "provider" (if t.provider = .github then none else some (.str t.provider.val)) ++
    [("repository", t.repository.toJson), ("account", .str t.account), ("pr", .num t.pr),
      ("target_tip", .str t.targetTip), ("comparison_base", .str t.comparisonBase),
      ("head", .str t.head), ("open", .bool t.isOpen), ("draft", .bool t.draft)] ++
    skipNone "merged" (if t.merged then some (.bool true) else none) ++
    [("pending_review", .bool t.pendingReview)] ++
    skipNone "compare" (t.compare.map CompareRefs.toJson) ++
    skipNone "entire" (t.entire.map EntireTarget.toJson))

/-! ## Snapshots -/

/-- A comment of the review's threads, as the provider reports it. -/
structure ThreadComment where
  id : Nat
  rootId : Nat
  path : String
  side : Option Side
  line : Option Nat
  startLine : Option Nat
  fileLevel : Option Bool
  body : String
  author : String
  commitId : String
  createdAt : Option String
deriving DecidableEq, Repr

structure Snapshot where
  id : SnapshotId
  title : String
  origin : String
  patch : PatchReport
  remote : Option RemoteTarget
  comments : List ThreadComment
  overview : Overview
  warnings : List String
deriving DecidableEq

def ThreadComment.toJson (c : ThreadComment) : Json :=
  .obj ([("id", .num c.id), ("root_id", .num c.rootId), ("path", .str c.path),
    ("side", (c.side.map Side.toJson).getD .null), ("line", .ofNat? c.line),
    ("start_line", .ofNat? c.startLine)] ++
    skipNone "file_level" (c.fileLevel.map Json.bool) ++
    [("body", .str c.body), ("author", .str c.author), ("commit_id", .str c.commitId),
      ("created_at", .ofStr? c.createdAt)])

def Snapshot.toJson (legacy : Bool) (s : Snapshot) : Json :=
  .obj [("id", .str s.id.val), ("title", .str s.title), ("origin", .str s.origin),
    ("patch", s.patch.toJson legacy), ("remote", (s.remote.map RemoteTarget.toJson).getD .null),
    ("comments", .arr (s.comments.map ThreadComment.toJson)), ("overview", s.overview.toJson),
    ("warnings", .arr (s.warnings.map Json.str))]

/-- GitHub keeps the original tag so existing snapshot ids stay valid. -/
def ProviderId.identityTag (p : ProviderId) : Bytes :=
  if p = .github then asBytes "snapshot-v1"
  else asBytes ("snapshot-" ++ p.val.toLower ++ "-v1")

namespace Snapshot

def identity (hashes : Hashes) (patch : PatchReport) (remote : Option RemoteTarget)
    (origin : String) : SnapshotId :=
  let source := remote.map fun r => Json.arr [r.repository.toJson, .num r.pr, .str r.targetTip,
    .str r.comparisonBase, .str r.head, .str r.account]
  let bytes := Json.toVec (.arr [.str origin, patch.legacyJson, source.getD .null])
  let tag := ((remote.map RemoteTarget.provider).getD ProviderId.github).identityTag
  match remote.filter fun r => r.provider = .entire with
  | some r =>
    let entire := Json.toVec ((r.entire.map EntireTarget.toJson).getD .null)
    ⟨digest hashes.sha256 [tag, bytes, entire]⟩
  | none => ⟨digest hashes.sha256 [tag, bytes]⟩

def verifyIdentity (hashes : Hashes) (s : Snapshot) : Bool :=
  s.id = identity hashes s.patch s.remote s.origin

/-- The snapshot that is read back after it was stored. -/
def stored (s : Snapshot) : Snapshot :=
  { s with overview := { s.overview with blame := s.overview.blame.stored } }

def file (s : Snapshot) (id : FileId) : Option FileChange := s.patch.files.find? fun f => f.id = id

end Snapshot

/-! ## Drafts -/

structure Draft where
  id : DraftId
  snapshot : SnapshotId
  file : FileId
  side : Side
  startLine : Nat
  line : Nat
  fileLevel : Bool
  body : String
  version : Nat
  savedVersion : Nat
  published : Bool
deriving DecidableEq, Repr

namespace Draft

def isSaved (d : Draft) : Bool := d.version = d.savedVersion

def isFileLevel (d : Draft) : Bool := d.fileLevel

end Draft
end Diffz
