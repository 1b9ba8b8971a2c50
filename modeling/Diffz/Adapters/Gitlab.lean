import Diffz.Adapters.Github
import Diffz.Lib.Search

/-!
# Reviews for GitLab (`crates/adapters/src/gitlab.rs`)

GitLab has no reviews of its own, so one is several requests: a discussion for each comment and a
note with the summary, each ending in a hidden marker that carries the fingerprint. The position of
a comment is computed when the review is prepared and is part of the fingerprint.

`comments` is the other direction: what the writer reads back from GitLab, in GitHub's shape. The
answers of the server are its arguments. They are those of `discussionComments` as well, which reads
the discussions of a snapshot, and of `patchFromDiffs`: a compare comes without file headers, and the
patch is put together again from its records.
-/

set_option autoImplicit false

namespace Diffz
namespace Gitlab

/-! ## Positions -/

structure GitlabRangeLine where
  lineCode : String
  side : String
  oldLine : Option Nat
  newLine : Option Nat

structure GitlabLineRange where
  start : GitlabRangeLine
  stop : GitlabRangeLine

structure GitlabPosition where
  positionType : String
  baseSha : String
  startSha : String
  headSha : String
  oldPath : String
  newPath : String
  oldLine : Option Nat
  newLine : Option Nat
  lineRange : Option GitlabLineRange

/-- A line number under `skip_serializing_if`. -/
def skipNone? (key : String) (n : Option Nat) : List (String × Json) :=
  skipNone key (n.map fun n => .num n)

def GitlabRangeLine.toJson (l : GitlabRangeLine) : Json :=
  .obj ([("line_code", .str l.lineCode), ("type", .str l.side)] ++
    skipNone? "old_line" l.oldLine ++ skipNone? "new_line" l.newLine)

def GitlabLineRange.toJson (r : GitlabLineRange) : Json :=
  .obj [("start", r.start.toJson), ("end", r.stop.toJson)]

def GitlabPosition.toJson (p : GitlabPosition) : Json :=
  .obj ([("position_type", .str p.positionType), ("base_sha", .str p.baseSha),
    ("start_sha", .str p.startSha), ("head_sha", .str p.headSha), ("old_path", .str p.oldPath),
    ("new_path", .str p.newPath)] ++
    skipNone? "old_line" p.oldLine ++ skipNone? "new_line" p.newLine ++
    skipNone "line_range" (p.lineRange.map GitlabLineRange.toJson))

def GitlabRangeLine.new (pathHash : String) (side : Side) (row : PatchRow) : GitlabRangeLine :=
  { lineCode := pathHash ++ "_" ++ toString (row.oldLine.getD 0) ++ "_" ++
      toString (row.newLine.getD 0)
    side := if side = .right then "new" else "old"
    oldLine := row.oldLine
    newLine := row.newLine }

def position (hashes : Hashes) (target : RemoteTarget) (f : FileChange) (d : Draft) :
    Except ReviewError (Option Json) :=
  match f.path with
  -- The source panics here; `expect("parser requires a path")`.
  | none => .error "parser requires a path"
  | some path => do
    let old ← (f.oldPath.getD path).utf8
    let new ← (f.newPath.getD path).utf8
    let position : GitlabPosition :=
      { positionType := "file", baseSha := target.comparisonBase, startSha := target.targetTip,
        headSha := target.head, oldPath := old, newPath := new, oldLine := none, newLine := none,
        lineRange := none }
    if d.isFileLevel then return some position.toJson
    else match f.line d.side d.line with
      | none => .error "the draft holds no source line to post to GitLab"
      | some row =>
        let position := { position with
          positionType := "text", oldLine := row.oldLine, newLine := row.newLine }
        if d.startLine ≠ d.line then
          match f.line d.side d.startLine with
          | none => .error "the draft starts outside the GitLab diff"
          | some start =>
            let pathHash := hex (hashes.sha1 (asBytes new))
            return some { position with
              lineRange := some ⟨.new pathHash d.side start, .new pathHash d.side row⟩ }.toJson
        else return some position.toJson

/-! ## Rules -/

/-- Whether a text has a line GitLab would take for a quick action. -/
def quickAction (text : String) : Bool :=
  (textLines text.toList).any fun l => (l.dropWhile isWhitespace).head? = some '/'

def check (_ : Verdict) (summary : String) (drafts : List Draft) : Except ReviewError Unit :=
  if quickAction summary ∨ drafts.any fun d => quickAction d.body then
    .error ("GitLab quick actions are disallowed here; " ++
      "format inline slash-prefixed text before posting")
  else .ok ()

def payload (p : PreparedReview) : Json :=
  .obj [("head", .str p.target.head), ("verdict", p.verdict.toJson), ("summary", .str p.summary),
    ("comments", .arr (p.comments.map PreparedComment.toJson))]

/-- `u8::is_ascii_hexdigit`. -/
def isAsciiHexdigit (b : UInt8) : Bool :=
  (48 ≤ b && b ≤ 57) || (97 ≤ b && b ≤ 102) || (65 ≤ b && b ≤ 70)

/-- The diff references `target` accepts from GitLab; it makes no target of others. -/
def usableRefs (t : RemoteTarget) : Bool :=
  [t.head, t.targetTip, t.comparisonBase].all fun sha =>
    (asBytes sha).length = 40 && (asBytes sha).all isAsciiHexdigit

/-- `GitlabRules`. -/
def rules (hashes : Hashes) : ReviewRules where
  id := .gitlab
  readOnlyReason := none
  check := check
  position := position hashes
  payload := payload
  marksReviews := true

/-! ## Markers -/

/-- The marker up to its closing ` -->`, which `trim_end_matches` takes off; the state before it is
one of three words. -/
def openMarker (p : PreparedReview) : String :=
  "\n\n<!-- diffz:" ++ p.fingerprint ++ ":" ++ p.target.head ++ ":" ++ p.verdict.remoteState

def marker (p : PreparedReview) : String := openMarker p ++ " -->"

/-- The text of the discussion a comment is posted as. -/
def postedBody (p : PreparedReview) (c : PreparedComment) : String :=
  c.body ++ openMarker p ++ ":" ++ c.side.api ++ " -->"

/-- The text of a discussion as `send` puts it together: the comment, the marker without its end, the
side, and the end again. -/
def commentBody (p : PreparedReview) (c : PreparedComment) : String :=
  c.body ++ String.ofList (trimEndMatches " -->".toList (marker p).toList) ++ ":" ++ c.side.api ++
    " -->"

/-- The marker of a note, taken off its body. -/
def markedNote (n : Json) : Option Json := do
  let body ← (n.get "body").asStr
  let (body, mark) ← rsplitOnce "\n\n<!-- diffz:".toList body.toList
  let inner ← stripSuffix " -->".toList mark
  let fields := (inner.splitOn ':').map String.ofList
  if ¬ (3 ≤ fields.length ∧ fields.length ≤ 4) then none
  else some (.obj [("id", n.get "id"), ("body", .str (String.ofList body)),
    ("commit_id", .ofStr? fields[1]?), ("state", .ofStr? fields[2]?),
    ("fingerprint", .ofStr? fields[0]?), ("side", .ofStr? fields[3]?),
    ("user", .obj [("login", (n.get "author").get "username")])])

/-- File-level notes written before positioned file discussions were supported. -/
def fileLevelNote (n : Json) (fingerprint : String) : Option Json := do
  let marked ← markedNote n
  if ¬ (marked.get "fingerprint").isStr fingerprint then none
  else do
    let body ← (marked.get "body").asStr
    let rest ← stripPrefix "**".toList body.toList
    let (path, rest) ← splitOnce "**\n\n".toList rest
    if path = [] ∨ rest = [] then none
    else some (.obj [("body", .str (String.ofList rest)), ("path", .str (String.ofList path)),
      ("line", .num 0), ("side", .str "RIGHT")])

/-! ## Reading a review back -/

/-- The entry for one note of a discussion; nothing for a note that is not of this review. -/
def discussionEntry (t : RemoteTarget) (fingerprint : String) (n : Json) :
    Except String (Option Json) :=
  let pos := n.get "position"
  let kind := pos.get "position_type"
  if ¬ kind.isStr "text" ∧ ¬ kind.isStr "file" then .ok none
  else match markedNote n with
    | none => .ok none
    | some marked =>
      if ¬ (marked.get "fingerprint").isStr fingerprint then .ok none
      else if ¬ (pos.get "head_sha").isStr t.head ∨ ¬ (pos.get "base_sha").isStr t.comparisonBase ∨
          ¬ (pos.get "start_sha").isStr t.targetTip ∨
          ¬ ((n.get "author").get "username").isStr t.account then
        .error "Discussion identity mismatch"
      else if kind.isStr "file" then
        .ok (some (.obj [("body", marked.get "body"), ("path", pos.get "new_path"),
          ("line", .num 0), ("start_line", .num 0), ("side", .str "RIGHT")]))
      else
        let right := match (marked.get "side").asStr with
          | some s => decide (s = "RIGHT")
          | none => ((pos.get "new_line").asU64).isSome
        let line := pos.get (if right then "new_line" else "old_line")
        let start := ((pos.get "line_range").get "start").get
          (if right then "new_line" else "old_line")
        .ok (some (.obj [("body", marked.get "body"),
          ("path", pos.get (if right then "new_path" else "old_path")), ("line", line),
          ("start_line", match start.asU64 with
            | some n => .num n
            | none => line),
          ("side", .str (if right then "RIGHT" else "LEFT"))]))

def discussionEntries (t : RemoteTarget) (fingerprint : String) :
    List Json → Except String (List Json)
  | [] => .ok []
  | n :: notes => do
    let entry ← discussionEntry t fingerprint n
    let rest ← discussionEntries t fingerprint notes
    return entry.toList ++ rest

/-- The answers of the server that `GitlabWriter::comments` reads. -/
structure Answers where
  note : Json
  approvals : Json
  reviewers : Json
  discussions : List Json
  notes : List Json

/-- Whether GitLab shows the verdict of the review. -/
def verdictShown (t : RemoteTarget) (a : Answers) (state : Json) : Except String Unit :=
  if state.isStr "APPROVED" then
    if ((a.approvals.get "approved_by").asArray).any fun users =>
        users.any fun u => ((u.get "user").get "username").isStr t.account then .ok ()
    else .error "Approval could not be verified"
  else if state.isStr "CHANGES_REQUESTED" then
    if a.reviewers.asArray.any fun users =>
        users.any fun u => ((u.get "user").get "username").isStr t.account &&
          (u.get "state").isStr "requested_changes" then .ok ()
    else .error "GitLab change request could not be verified"
  else .ok ()

/-- `GitlabWriter::comments`. -/
def comments (t : RemoteTarget) (a : Answers) : Except String (List Json) :=
  match markedNote a.note with
  | none => .error "Review marker unavailable"
  | some review =>
    match (review.get "fingerprint").asStr with
    | none => .error "Missing fingerprint"
    | some fingerprint => do
      verdictShown t a (review.get "state")
      let found ← discussionEntries t fingerprint
        (a.discussions.flatMap fun d => (d.get "notes").asArray.getD [])
      let old := (a.notes.filter fun n => ¬ (n.get "system").isTrue ∧
        ¬ (n.get "type").isStr "DiffNote").filterMap fun n => fileLevelNote n fingerprint
      return found ++ old

/-! ## Discussions of a snapshot -/

/-- What a note of a discussion with this root becomes; nothing without a number of its own. -/
def discussionNote (root n : Json) : Option (ThreadComment ⊕ ConversationComment) :=
  (n.get "id").asU64.map fun id =>
    let pos := root.get "position"
    let kind := pos.get "position_type"
    let body := (n.get "body").asStr.getD ""
    let author := ((n.get "author").get "username").asStr.getD "unknown"
    let createdAt := (n.get "created_at").asStr
    if kind.isStr "text" ∨ kind.isStr "file" then
      let fileLevel := kind.isStr "file"
      let right := fileLevel || (pos.get "new_line").asU64.isSome
      let key := if right then "new" else "old"
      .inl { id, rootId := (root.get "id").asU64.getD id
             path := (pos.get (key ++ "_path")).asStr.getD ""
             side := some (if right then .right else .left)
             line := Github.lineNumber (pos.get (key ++ "_line"))
             startLine :=
               Github.lineNumber (((pos.get "line_range").get "start").get (key ++ "_line"))
             fileLevel := some fileLevel, body, author
             commitId := (pos.get "head_sha").asStr.getD "", createdAt }
    else .inr { id, body, author, createdAt }

/-- One discussion of `discussion_comments`. The first note that is not the system's is its root. -/
def discussion (d : Json) : List (ThreadComment ⊕ ConversationComment) :=
  let notes := ((d.get "notes").asArray.getD []).filter fun n => ¬ (n.get "system").isTrue
  match notes.head? with
  | none => []
  | some root => notes.filterMap (discussionNote root)

def discussionComments (ds : List Json) (overview : Overview) : List ThreadComment × Overview :=
  let found := ds.flatMap discussion
  (found.filterMap Sum.getLeft?,
    { overview with conversation := overview.conversation ++ found.filterMap Sum.getRight? })

/-! ## Patches from compares -/

open Github (quotePath patchLine diffLine markerLines patchText)

/-- A file mode of a record. -/
def modeOf (d : Json) (key : String) : String := (d.get key).asStr.getD "100644"

/-- One record of `patch_from_diffs`. -/
def patchFromDiff (d : Json) : Bytes :=
  match (d.get "old_path").asStr, (d.get "new_path").asStr with
  | some old, some new =>
    let isNew := (d.get "new_file").isTrue
    let isDeleted := (d.get "deleted_file").isTrue
    let text := (d.get "diff").asStr.getD ""
    let omitted := text.isEmpty && ((d.get "too_large").isTrue || (d.get "collapsed").isTrue)
    diffLine (asBytes old) (asBytes new) ++
    (if isNew then patchLine [asBytes "new file mode ", asBytes (modeOf d "b_mode")]
    else if isDeleted then patchLine [asBytes "deleted file mode ", asBytes (modeOf d "a_mode")]
    else if modeOf d "a_mode" ≠ modeOf d "b_mode" then
      patchLine [asBytes "old mode ", asBytes (modeOf d "a_mode")] ++
        patchLine [asBytes "new mode ", asBytes (modeOf d "b_mode")]
    else []) ++
    (if (d.get "renamed_file").isTrue ∧ old ≠ new then
      patchLine [asBytes "rename from ", quotePath [] (asBytes old)] ++
        patchLine [asBytes "rename to ", quotePath [] (asBytes new)]
    else []) ++
    (if omitted then patchLine [asBytes "GitLab omitted its text"] else []) ++
    (if ¬text.isEmpty ∨ omitted then
      markerLines (if isNew then devNull else quotePath (asBytes "a/") (asBytes old))
        (if isDeleted then devNull else quotePath (asBytes "b/") (asBytes new))
    else []) ++
    (if text.isEmpty then [] else patchText text)
  | _, _ => []

/-- `patch_from_diffs`. -/
def patchFromDiffs (diffs : List Json) : Bytes := diffs.flatMap patchFromDiff

end Gitlab
end Diffz
