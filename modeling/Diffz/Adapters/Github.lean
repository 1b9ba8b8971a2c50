import Diffz.Core.Review

/-!
# Reviews for GitHub (`crates/adapters/src/github.rs`)

The rules of the GitHub provider. Its payload is the body of the request that posts a review, and
is part of the fingerprint.

A pull request of more files than GitHub has a diff for is read file by file, and the patch is put
together again from the answers (`patchFromFiles`). `thread` is one comment of the review's threads
as the snapshot keeps it.
-/

set_option autoImplicit false

namespace Diffz
namespace Github

/-- One comment of the payload. A comment on a whole file has no line; a single-line comment has no
start. -/
def payloadComment (c : PreparedComment) : Json :=
  if c.fileLevel then
    .obj [("path", .str c.path), ("body", .str c.body), ("subject_type", .str "file")]
  else
    let range := decide (c.startLine < c.line)
    .obj ([("path", .str c.path), ("body", .str c.body), ("line", .num c.line),
      ("side", .str c.side.api)] ++
      skipNone "start_line" (if range then some (.num c.startLine) else none) ++
      skipNone "start_side" (if range then some (.str c.side.api) else none))

def payload (p : PreparedReview) : Json :=
  .obj [("commit_id", .str p.target.head), ("event", .str p.verdict.api), ("body", .str p.summary),
    ("comments", .arr (p.comments.map payloadComment))]

/-- `GithubRules`. -/
def rules : ReviewRules where
  id := .github
  readOnlyReason := none
  check _ _ _ := .ok ()
  position _ _ _ := .ok none
  payload := payload
  marksReviews := false

/-! ## Patches from files -/

/-- A byte that stands for itself in a path that is not quoted. -/
def plainByte (b : UInt8) : Bool := 32 ≤ b && b < 127 && b != 34 && b != 92

/-- A byte of a quoted path. -/
def quoteByte (b : UInt8) : Bytes :=
  if b = 34 then [92, 34]
  else if b = 92 then [92, 92]
  else if b = 9 then [92, 116]
  else if b = 10 then [92, 110]
  else if 32 ≤ b ∧ b ≤ 126 then [b]
  else [92, .ofNat (48 + b.toNat / 64), .ofNat (48 + b.toNat / 8 % 8), .ofNat (48 + b.toNat % 8)]

/-- The C-style quoting of Git, with `side` in front of the path. -/
def quotePath (side path : Bytes) : Bytes :=
  if path.all plainByte then side ++ path else 34 :: (side ++ path.flatMap quoteByte ++ [34])

/-- A line of the patch. -/
def patchLine (parts : List Bytes) : Bytes := parts.flatten ++ [10]

/-- The `diff --git` line. -/
def diffLine (prev name : Bytes) : Bytes :=
  patchLine [diffGit, quotePath (asBytes "a/") prev, asBytes " ", quotePath (asBytes "b/") name]

/-- The text of the hunks, with the line feed that may be missing at its end. -/
def patchText (text : String) : Bytes :=
  asBytes text ++ if (asBytes text).getLast? = some 10 then [] else [10]

/-- The two marker lines. -/
def markerLines (old new : Bytes) : Bytes :=
  patchLine [asBytes "--- ", old] ++ patchLine [asBytes "+++ ", new]

/-- One file of `patch_from_files`. -/
def patchFromFile (f : Json) : Bytes :=
  match (f.get "filename").asStr with
  | none => []
  | some name =>
    let prev := (f.get "previous_filename").asStr.getD name
    let status := (f.get "status").asStr.getD "modified"
    let changes := (f.get "changes").asU64.getD 0
    let patch := (f.get "patch").asStr
    diffLine (asBytes prev) (asBytes name) ++
    (if status = "added" then patchLine [asBytes "new file mode 100644"]
    else if status = "removed" then patchLine [asBytes "deleted file mode 100644"]
    else if (status = "renamed" ∨ status = "copied") ∧ prev ≠ name then
      let verb := if status = "copied" then "copy" else "rename"
      patchLine [asBytes verb, asBytes " from ", quotePath [] (asBytes prev)] ++
        patchLine [asBytes verb, asBytes " to ", quotePath [] (asBytes name)]
    else []) ++
    (if patch.isNone ∧ 0 < changes then
      patchLine [asBytes (s!"{changes}-line change; GitHub omitted its text")]
    else []) ++
    (if patch.isSome ∨ 0 < changes then
      markerLines (if status = "added" then devNull else quotePath (asBytes "a/") (asBytes prev))
        (if status = "removed" then devNull else quotePath (asBytes "b/") (asBytes name))
    else []) ++
    (match patch with
    | some p => patchText p
    | none => [])

/-- `patch_from_files`. -/
def patchFromFiles (files : List Json) : Bytes := files.flatMap patchFromFile

/-! ## Threads -/

/-- `Value::pointer` along names. -/
def pointer (v : Json) (names : List String) : Json := names.foldl Json.get v

def missing (names : List String) : String :=
  "GitHub response is missing " ++ String.join (names.map ("/" ++ ·))

def text (v : Json) (names : List String) : Except String String :=
  match (pointer v names).asStr with
  | some s => .ok s
  | none => .error (missing names)

def number (v : Json) (names : List String) : Except String Nat :=
  match (pointer v names).asU64 with
  | some n => .ok n
  | none => .error (missing names)

/-- `as_u64().and_then(|n| n.try_into().ok())`, into a `u32`. -/
def lineNumber (v : Json) : Option Nat := v.asU64.filter fun n => n ≤ u32Max

def threadSide (v : Json) : Option Side :=
  if v.isStr "LEFT" then some .left else if v.isStr "RIGHT" then some .right else none

def thread (v : Json) : Except String ThreadComment := do
  let id ← number v ["id"]
  let path ← text v ["path"]
  let body ← text v ["body"]
  let author ← text v ["user", "login"]
  let commitId ← text v ["commit_id"]
  return { id, rootId := (v.get "in_reply_to_id").asU64.getD id, path,
           side := threadSide (v.get "side"), line := lineNumber (v.get "line"),
           startLine := lineNumber (v.get "start_line"),
           fileLevel := some ((v.get "subject_type").isStr "file"), body, author, commitId,
           createdAt := (v.get "created_at").asStr }

end Github
end Diffz
