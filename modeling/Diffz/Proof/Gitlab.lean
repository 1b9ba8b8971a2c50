import Diffz.Adapters.Outbox
import Diffz.Adapters.Gitlab
import Diffz.Proof.Fingerprint
import Diffz.Proof.Prepare

/-!
# A GitLab comment is recognised unless it is on the old side of a renamed file

What the writer posts for a comment, and what it makes of the note when it reads it back. The marker
at the end of the note is read off exactly, whatever the comment says. The place of the comment is
read from the old or the new fields of the position by its side, but it was prepared with one path
for both: where the old path is another one, a comment on the old side is not found under its key.
A comment on a whole file comes back on the new side without lines, however it was drafted.
-/

set_option autoImplicit false

namespace Diffz
namespace Proof

open Diffz.Gitlab

variable {hashes : Hashes} {p : PreparedReview} {c : PreparedComment} {n : Json}

/-! ## Markers -/

/-- A text the marker can carry: it breaks neither the fields nor the line. -/
def Plain (s : String) : Prop := ':' ∉ s.toList ∧ '\n' ∉ s.toList

theorem not_mem_of_hexdigits {s : String} (h : (asBytes s).all isAsciiHexdigit) {x : Char} {b : UInt8}
    (henc : String.utf8EncodeChar x = [b]) (hb : isAsciiHexdigit b = false) : x ∉ s.toList := by
  intro hx
  have hmem : b ∈ asBytes s := by
    rw [asBytes_eq_flatMap]
    exact List.mem_flatMap.mpr ⟨x, hx, by simp [henc]⟩
  rw [List.all_eq_true.mp h b hmem] at hb
  cases hb

theorem plain_head {t : RemoteTarget} (h : usableRefs t) : Plain t.head := by
  simp only [usableRefs, List.all_cons, Bool.and_eq_true] at h
  exact ⟨not_mem_of_hexdigits h.1.2 (b := 58) (by decide) (by decide),
    not_mem_of_hexdigits h.1.2 (b := 10) (by decide) (by decide)⟩

theorem digitChar_plain {m : Nat} (h : m < 16) :
    Nat.digitChar m ≠ ':' ∧ Nat.digitChar m ≠ '\n' := by
  have all : ∀ m : Fin 16, Nat.digitChar m ≠ ':' ∧ Nat.digitChar m ≠ '\n' := by decide
  exact all ⟨m, h⟩

theorem plain_hex (b : Bytes) : Plain (hex b) := by
  have hchars : ∀ x ∈ (hex b).toList, ∃ m < 16, x = Nat.digitChar m := by
    intro x hx
    rw [hex, String.toList_ofList] at hx
    obtain ⟨y, -, hx⟩ := List.mem_flatMap.mp hx
    have hy := y.toNat_lt
    simp only [List.mem_cons, List.not_mem_nil, or_false] at hx
    rcases hx with rfl | rfl
    · exact ⟨y.toNat / 16, by omega, rfl⟩
    · exact ⟨y.toNat % 16, by omega, rfl⟩
  constructor
  · intro hc
    obtain ⟨m, hm, heq⟩ := hchars _ hc
    exact (digitChar_plain hm).1 heq.symm
  · intro hc
    obtain ⟨m, hm, heq⟩ := hchars _ hc
    exact (digitChar_plain hm).2 heq.symm

theorem plain_remoteState (v : Verdict) : Plain v.remoteState := by
  cases v <;> unfold Plain <;> decide

theorem plain_api (side : Side) : Plain side.api := by
  cases side <;> unfold Plain <;> decide

/-- The fields of a marker. -/
def markerText (p : PreparedReview) (c : PreparedComment) : List Char :=
  p.fingerprint.toList ++ ':' :: (p.target.head.toList ++ ':' ::
    (p.verdict.remoteState.toList ++ ':' :: c.side.api.toList))

theorem postedBody_toList (p : PreparedReview) (c : PreparedComment) :
    (postedBody p c).toList = c.body.toList ++ ("\n\n<!-- diffz:".toList ++
      (markerText p c ++ " -->".toList)) := by
  show (c.body ++ ("\n\n<!-- diffz:" ++ p.fingerprint ++ ":" ++ p.target.head ++ ":" ++
    p.verdict.remoteState) ++ ":" ++ c.side.api ++ " -->").toList = _
  simp [markerText]

theorem rsplitOnce_marker {body rest : List Char} (h : '\n' ∉ rest) :
    rsplitOnce "\n\n<!-- diffz:".toList (body ++ ("\n\n<!-- diffz:".toList ++ rest)) =
      some (body, rest) := by
  have hsep : ("\n\n<!-- diffz:".toList).reverse = ":zffid --!<".toList ++ '\n' :: ['\n'] := by
    decide
  unfold rsplitOnce
  rw [hsep, List.reverse_append, List.reverse_append, hsep, List.append_assoc,
    splitOnce_of_not_mem (by simpa using h) (by decide)]
  simp

/-- What is read off the note of a comment. -/
def markedOf (p : PreparedReview) (c : PreparedComment) (n : Json) : Json :=
  .obj [("id", n.get "id"), ("body", .str c.body), ("commit_id", .str p.target.head),
    ("state", .str p.verdict.remoteState), ("fingerprint", .str p.fingerprint),
    ("side", .str c.side.api), ("user", .obj [("login", (n.get "author").get "username")])]

theorem markedOf_get (p : PreparedReview) (c : PreparedComment) (n : Json) :
    (markedOf p c n).get "body" = .str c.body ∧
      (markedOf p c n).get "fingerprint" = .str p.fingerprint ∧
      (markedOf p c n).get "side" = .str c.side.api := by
  simp [markedOf, Json.get]

/-- **The marker is read off exactly.** -/
theorem markedNote_posted (hbody : n.get "body" = .str (postedBody p c)) (hfp : Plain p.fingerprint)
    (hhead : Plain p.target.head) : markedNote n = some (markedOf p c n) := by
  have hstate := plain_remoteState p.verdict
  have hside := plain_api c.side
  have hline : '\n' ∉ markerText p c ++ " -->".toList := by
    simp only [markerText, List.mem_append, List.mem_cons, not_or]
    exact ⟨⟨hfp.2, by decide, hhead.2, by decide, hstate.2, by decide, hside.2⟩, by decide⟩
  have hsplit : (markerText p c).splitOn ':' = [p.fingerprint.toList, p.target.head.toList,
      p.verdict.remoteState.toList, c.side.api.toList] := by
    rw [markerText, List.splitOn_append_cons_self_of_not_mem hfp.1,
      List.splitOn_append_cons_self_of_not_mem hhead.1,
      List.splitOn_append_cons_self_of_not_mem hstate.1, List.splitOn_eq_singleton hside.1]
  unfold markedNote
  rw [hbody]
  simp only [Json.asStr_str, Option.bind_eq_bind, Option.bind_some, postedBody_toList,
    rsplitOnce_marker hline, stripSuffix_append, hsplit]
  simp [Json.ofStr?, markedOf]

/-! ## Positions -/

def sidePath (q : GitlabPosition) : Side → String
  | .left => q.oldPath
  | .right => q.newPath

def sideLine (q : GitlabPosition) : Side → Option Nat
  | .left => q.oldLine
  | .right => q.newLine

def rangeLine (r : GitlabRangeLine) : Side → Option Nat
  | .left => r.oldLine
  | .right => r.newLine

/-- The line a range of lines starts at. -/
def startLine (q : GitlabPosition) (side : Side) : Option Nat :=
  q.lineRange.bind fun r => rangeLine r.start side

/-- What a position says of the draft it was made for. -/
structure Placed (t : RemoteTarget) (f : FileChange) (d : Draft) (q : GitlabPosition) : Prop where
  head : q.headSha = t.head
  base : q.baseSha = t.comparisonBase
  start : q.startSha = t.targetTip
  paths : ∃ path, f.path = some path ∧ (f.oldPath.getD path).utf8 = .ok q.oldPath ∧
    (f.newPath.getD path).utf8 = .ok q.newPath
  file : d.fileLevel = true → q.positionType = "file"
  lines : d.fileLevel = false → q.positionType = "text" ∧ sideLine q d.side = some d.line ∧
    (startLine q d.side).getD d.line = d.startLine

theorem number_of_line {f : FileChange} {side : Side} {m : Nat} {row : PatchRow}
    (h : f.line side m = some row) : row.number side = some m := by
  simpa using List.find?_some h

theorem sideLine_row {q : GitlabPosition} {row : PatchRow} (side : Side) (hold : q.oldLine = row.oldLine)
    (hnew : q.newLine = row.newLine) : sideLine q side = row.number side := by
  cases side
  · exact hold
  · exact hnew

theorem rangeLine_new (pathHash : String) (side : Side) (row : PatchRow) :
    rangeLine (.new pathHash side row) side = row.number side := by
  cases side <;> rfl

/-- **Every accepted position says where its draft is.** -/
theorem position_placed {t : RemoteTarget} {f : FileChange} {d : Draft} {j : Option Json}
    (h : position hashes t f d = .ok j) : ∃ q, j = some q.toJson ∧ Placed t f d q := by
  unfold position at h
  split at h
  · cases h
  rename_i path hpath
  obtain ⟨old, hold, h⟩ := ok_of_bind h
  obtain ⟨new, hnew, h⟩ := ok_of_bind h
  split at h
  · rename_i hfile
    cases h
    refine ⟨_, rfl, rfl, rfl, rfl, ⟨path, hpath, hold, hnew⟩, fun _ => rfl, ?_⟩
    intro hline
    rw [Draft.isFileLevel, hline] at hfile
    cases hfile
  rename_i hfile
  have hline : d.fileLevel = false := by simpa [Draft.isFileLevel] using hfile
  split at h
  · cases h
  rename_i row hrow
  split at h
  · split at h
    · cases h
    rename_i start hstart
    cases h
    refine ⟨_, rfl, rfl, rfl, rfl, ⟨path, hpath, hold, hnew⟩, by simp [hline], fun _ => ⟨rfl, ?_, ?_⟩⟩
    · exact (sideLine_row _ rfl rfl).trans (number_of_line hrow)
    · simp [startLine, rangeLine_new, number_of_line hstart]
  · rename_i hsame
    cases h
    refine ⟨_, rfl, rfl, rfl, rfl, ⟨path, hpath, hold, hnew⟩, by simp [hline], fun _ => ⟨rfl, ?_, ?_⟩⟩
    · exact (sideLine_row _ rfl rfl).trans (number_of_line hrow)
    · exact (not_not.mp hsame).symm

/-! ## Reading a note back -/

/-- GitLab lists the discussion a comment was posted as, as it was posted. -/
structure Noted (p : PreparedReview) (c : PreparedComment) (n : Json) : Prop where
  body : n.get "body" = .str (postedBody p c)
  position : n.get "position" = c.position.getD .null
  author : (n.get "author").get "username" = .str p.target.account

theorem position_get_type (q : GitlabPosition) :
    q.toJson.get "position_type" = .str q.positionType := by
  simp [GitlabPosition.toJson]

theorem position_get_shas (q : GitlabPosition) : q.toJson.get "base_sha" = .str q.baseSha ∧
    q.toJson.get "start_sha" = .str q.startSha ∧ q.toJson.get "head_sha" = .str q.headSha := by
  simp [GitlabPosition.toJson, Json.get]

theorem position_get_paths (q : GitlabPosition) : q.toJson.get "old_path" = .str q.oldPath ∧
    q.toJson.get "new_path" = .str q.newPath := by
  simp [GitlabPosition.toJson, Json.get]

/-- The fields after the paths, each of which may be left out. -/
theorem position_get_old_line (q : GitlabPosition) :
    q.toJson.get "old_line" = .ofNat? q.oldLine := by
  rcases q with ⟨_, _, _, _, _, _, old, new, range⟩
  cases old <;> cases new <;> cases range <;>
    simp [GitlabPosition.toJson, Json.get, skipNone?, skipNone, Json.ofNat?]

theorem position_get_new_line (q : GitlabPosition) :
    q.toJson.get "new_line" = .ofNat? q.newLine := by
  rcases q with ⟨_, _, _, _, _, _, old, new, range⟩
  cases old <;> cases new <;> cases range <;>
    simp [GitlabPosition.toJson, Json.get, skipNone?, skipNone, Json.ofNat?]

theorem position_get_line_range (q : GitlabPosition) :
    q.toJson.get "line_range" = (q.lineRange.map GitlabLineRange.toJson).getD .null := by
  rcases q with ⟨_, _, _, _, _, _, old, new, range⟩
  cases old <;> cases new <;> cases range <;>
    simp [GitlabPosition.toJson, Json.get, skipNone?, skipNone]

theorem rangeLine_get (l : GitlabRangeLine) : l.toJson.get "old_line" = .ofNat? l.oldLine ∧
    l.toJson.get "new_line" = .ofNat? l.newLine := by
  rcases l with ⟨_, _, old, new⟩
  cases old <;> cases new <;>
    simp [GitlabRangeLine.toJson, Json.get, skipNone?, skipNone, Json.ofNat?]

/-- The field that holds the line of a side. -/
def lineField (side : Side) : String := if side = .right then "new_line" else "old_line"

theorem position_get_line (q : GitlabPosition) (side : Side) :
    q.toJson.get (lineField side) = .ofNat? (sideLine q side) := by
  cases side
  · exact position_get_old_line q
  · exact position_get_new_line q

theorem asU64_ofNat? (m : Option Nat) : (Json.ofNat? m).asU64 = m := by
  cases m <;> simp [Json.ofNat?]

theorem position_get_start (q : GitlabPosition) (side : Side) :
    (((q.toJson.get "line_range").get "start").get (lineField side)).asU64 = startLine q side := by
  rw [position_get_line_range]
  cases hr : q.lineRange with
  | none =>
    rw [startLine, hr]
    rfl
  | some r =>
    have hstart : r.toJson.get "start" = r.start.toJson := by
      simp [GitlabLineRange.toJson]
    rw [startLine, hr, Option.map_some, Option.getD_some, hstart, Option.bind_some]
    cases side
    · exact (congrArg Json.asU64 (rangeLine_get r.start).1).trans (asU64_ofNat? _)
    · exact (congrArg Json.asU64 (rangeLine_get r.start).2).trans (asU64_ofNat? _)

section

variable {rules : ReviewRules} {s : Snapshot} {f : FileChange} {d : Draft} {q : GitlabPosition}

/-- The entry for a note that was posted for a comment on a whole file. -/
def fileEntry (c : PreparedComment) (q : GitlabPosition) : Json :=
  .obj [("body", .str c.body), ("path", .str q.newPath), ("line", .num 0), ("start_line", .num 0),
    ("side", .str "RIGHT")]

/-- The entry for a note that was posted for a comment on lines. -/
def linesEntry (c : PreparedComment) (q : GitlabPosition) : Json :=
  .obj [("body", .str c.body), ("path", .str (sidePath q c.side)), ("line", .num c.line),
    ("start_line", .num c.startLine), ("side", .str c.side.api)]

/-- The line and the start of a comment, as they are read from its position. -/
theorem lines_read (hacc : Accepted rules s p.target d c f) (hq : Placed p.target f d q)
    (hline : d.fileLevel = false) : q.toJson.get (lineField c.side) = .num c.line ∧
      ((((q.toJson.get "line_range").get "start").get (lineField c.side)).asU64 = none ∧
          c.startLine = c.line ∨
        (((q.toJson.get "line_range").get "start").get (lineField c.side)).asU64 =
          some c.startLine) := by
  obtain ⟨-, hl, hstart⟩ := hq.lines hline
  rw [← hacc.side] at hl hstart
  rw [← hacc.line] at hl
  rw [← hacc.line, ← hacc.startLine] at hstart
  refine ⟨by rw [position_get_line, hl, Json.ofNat?], ?_⟩
  rw [position_get_start]
  cases hs : startLine q c.side with
  | none =>
    rw [hs, Option.getD_none] at hstart
    exact .inl ⟨rfl, hstart.symm⟩
  | some m =>
    rw [hs, Option.getD_some] at hstart
    exact .inr (congrArg some hstart)

/-- **The entry for the note of a comment.** -/
theorem discussionEntry_posted (hn : Noted p c n) (hpos : c.position = some q.toJson)
    (hacc : Accepted rules s p.target d c f) (hq : Placed p.target f d q)
    (hfp : Plain p.fingerprint) (hhead : Plain p.target.head) :
    discussionEntry p.target p.fingerprint n =
      .ok (some (if d.fileLevel then fileEntry c q else linesEntry c q)) := by
  have hposition : n.get "position" = q.toJson := by rw [hn.position, hpos, Option.getD_some]
  obtain ⟨hbase, hstart, hsha⟩ := position_get_shas q
  obtain ⟨hold, hnew⟩ := position_get_paths q
  obtain ⟨hbody, hfingerprint, hside⟩ := markedOf_get p c n
  unfold discussionEntry
  simp only [hposition, position_get_type, markedNote_posted hn.body hfp hhead, hbody,
    hfingerprint, hside, hbase, hstart, hsha, hnew, hq.head, hq.base, hq.start, hn.author,
    Json.asStr_str, Json.isStr, decide_true, not_true_eq_false, or_self, if_false]
  cases hfile : d.fileLevel with
  | true => simp [hq.file hfile, fileEntry]
  | false =>
    obtain ⟨hl, hs⟩ := lines_read hacc hq hfile
    -- The side in the marker says which of the fields of the position are read.
    cases hc : c.side with
    | left =>
      rw [hc] at hl hs
      rcases hs with ⟨hs, heq⟩ | hs
      · simp_all [(hq.lines hfile).1, Side.api, lineField, linesEntry, sidePath]
      · simp_all [(hq.lines hfile).1, Side.api, lineField, linesEntry, sidePath]
    | right =>
      rw [hc] at hl hs
      rcases hs with ⟨hs, heq⟩ | hs
      · simp_all [(hq.lines hfile).1, Side.api, lineField, linesEntry, sidePath]
      · simp_all [(hq.lines hfile).1, Side.api, lineField, linesEntry, sidePath]

/-! ## Keys -/

theorem commentKey_fileEntry (c : PreparedComment) (q : GitlabPosition) :
    commentKey (fileEntry c q) = some (.mk q.newPath c.body "RIGHT" 0 0) := by
  simp [commentKey, fileEntry, Json.get, Json.asU64]

theorem commentKey_linesEntry (c : PreparedComment) (q : GitlabPosition) :
    commentKey (linesEntry c q) =
      some (.mk (sidePath q c.side) c.body c.side.api c.startLine c.line) := by
  simp [commentKey, linesEntry, Json.get]

theorem commentKey_mk_inj {path body side path' body' side' : String} {m n m' n' : Nat} :
    CommentKey.mk path body side m n = CommentKey.mk path' body' side' m' n' ↔
      path = path' ∧ body = body' ∧ side = side' ∧ m = m' ∧ n = n' := by
  simp [CommentKey.mk]

theorem utf8_inj {a b : RepoPath} {x : String} (ha : a.utf8 = .ok x) (hb : b.utf8 = .ok x) :
    a = b := by
  unfold RepoPath.utf8 at ha hb
  split at ha
  · rename_i sa hsa
    split at hb
    · rename_i sb hsb
      cases ha
      cases hb
      have hbytes := (asBytes_of_fromUtf8 hsa).symm.trans (asBytes_of_fromUtf8 hsb)
      cases a
      cases b
      simpa using hbytes
    · cases hb
  · cases ha

/-- A prepared comment has the new path where there is one. -/
theorem Placed.newPath_eq (hacc : Accepted rules s p.target d c f) (hq : Placed p.target f d q) :
    q.newPath = c.path := by
  obtain ⟨path, hpath, -, hnew⟩ := hq.paths
  obtain ⟨path', hpath', hutf8⟩ := hacc.path
  cases hpath.symm.trans hpath'
  have hsame : f.newPath.getD path = path := by
    unfold FileChange.path at hpath
    cases hn : f.newPath with
    | none => rfl
    | some new =>
      rw [hn, Option.some_or, Option.some.injEq] at hpath
      exact hpath
  rw [hsame, hutf8] at hnew
  exact (Except.ok.inj hnew).symm

theorem Placed.oldPath_eq_iff (hacc : Accepted rules s p.target d c f)
    (hq : Placed p.target f d q) : q.oldPath = c.path ↔ f.oldPath = none ∨ f.oldPath = f.path := by
  obtain ⟨path, hpath, hold, -⟩ := hq.paths
  obtain ⟨path', hpath', hutf8⟩ := hacc.path
  cases hpath.symm.trans hpath'
  rw [hpath]
  cases hf : f.oldPath with
  | none =>
    rw [hf, Option.getD_none, hutf8] at hold
    simp [Except.ok.inj hold]
  | some old =>
    rw [hf, Option.getD_some] at hold
    constructor
    · intro heq
      rw [heq] at hold
      exact .inr (congrArg some (utf8_inj hold hutf8))
    · rintro (h | h)
      · cases h
      · cases h
        rw [hutf8] at hold
        exact (Except.ok.inj hold).symm

/-- The comments that are found under their keys. On lines: those on the new side, and those on the
old side of a file that has not moved. On a whole file: those drafted on the new side without
lines. -/
def Recognisable (f : FileChange) (d : Draft) : Prop :=
  if d.fileLevel then d.side = .right ∧ d.startLine = 0 ∧ d.line = 0
  else d.side = .right ∨ f.oldPath = none ∨ f.oldPath = f.path

theorem commentKey_entry_iff (hacc : Accepted rules s p.target d c f)
    (hq : Placed p.target f d q) :
    commentKey (if d.fileLevel then fileEntry c q else linesEntry c q) = some c.key ↔
      Recognisable f d := by
  unfold Recognisable
  cases d.fileLevel with
  | true =>
    rw [if_pos rfl, if_pos rfl, commentKey_fileEntry, Option.some.injEq, PreparedComment.key,
      commentKey_mk_inj, hq.newPath_eq hacc, hacc.side, hacc.startLine, hacc.line]
    have hright : "RIGHT" = d.side.api ↔ d.side = .right := by cases d.side <;> decide
    simp [hright, eq_comm (a := 0)]
  | false =>
    rw [if_neg Bool.false_ne_true, if_neg Bool.false_ne_true, commentKey_linesEntry,
      Option.some.injEq, PreparedComment.key, commentKey_mk_inj, hacc.side]
    cases d.side with
    | left => simpa [sidePath] using hq.oldPath_eq_iff hacc
    | right => simpa [sidePath] using hq.newPath_eq hacc

/-! ## Comments of a review -/

theorem discussionEntries_mem {t : RemoteTarget} {fingerprint : String} {notes found : List Json}
    {entry : Json} (h : discussionEntries t fingerprint notes = .ok found) (hn : n ∈ notes)
    (hentry : discussionEntry t fingerprint n = .ok (some entry)) : entry ∈ found := by
  induction notes generalizing found with
  | nil => cases hn
  | cons m notes ih =>
    rw [discussionEntries] at h
    obtain ⟨e, he, h⟩ := ok_of_bind h
    obtain ⟨rest, hrest, h⟩ := ok_of_bind h
    cases h
    rcases List.mem_cons.mp hn with rfl | hn
    · rw [hentry] at he
      cases he
      simp
    · exact List.mem_append_right _ (ih hrest hn)

/-- The notes of all discussions. -/
def discussionNotes (a : Answers) : List Json :=
  a.discussions.flatMap fun d => (d.get "notes").asArray.getD []

/-- What `comments` returns has the entry of every note of the review. -/
theorem comments_mem {t : RemoteTarget} {a : Answers} {fingerprint : String} {found : List Json}
    {review entry : Json} (hreview : markedNote a.note = some review)
    (hfp : review.get "fingerprint" = .str fingerprint) (h : comments t a = .ok found)
    (hn : n ∈ discussionNotes a) (hentry : discussionEntry t fingerprint n = .ok (some entry)) :
    entry ∈ found := by
  unfold comments at h
  simp only [hreview, hfp, Json.asStr_str] at h
  obtain ⟨-, -, h⟩ := ok_of_bind h
  obtain ⟨entries, hentries, h⟩ := ok_of_bind h
  cases h
  exact List.mem_append_left _ (discussionEntries_mem hentries hn hentry)

theorem plain_fingerprint {id : OperationId} {drafts : List Draft} {verdict : Verdict}
    {summary : String} (h : PrepareOk hashes rules id s drafts verdict summary p) :
    Plain p.fingerprint := by
  rw [h.fingerprint]
  exact plain_hex _

/-- **A GitLab comment is recognised exactly when it is not on the old side of a file that moved.**
For every review that is prepared under GitLab's rules, every draft of it, and a note that shows
what was posted for the draft: `comments` makes an entry of the note, which is among those it
returns for the review, and the entry is found under the key of the prepared comment if and only if
the draft is recognisable. -/
theorem gitlab_comment_recognised_iff {id : OperationId} {drafts : List Draft} {verdict : Verdict}
    {summary : String}
    (hp : PreparedReview.prepare hashes (Gitlab.rules hashes) id s drafts verdict summary = .ok p)
    (hrefs : usableRefs p.target) (hd : (d, c) ∈ drafts.zip p.comments)
    (hf : s.file d.file = some f) (hn : Noted p c n) :
    ∃ entry, discussionEntry p.target p.fingerprint n = .ok (some entry) ∧
      (∀ a review found, markedNote a.note = some review →
        review.get "fingerprint" = .str p.fingerprint → comments p.target a = .ok found →
        n ∈ discussionNotes a → entry ∈ found) ∧
      (commentKey entry = some c.key ↔ Recognisable f d) := by
  have hok := prepare_ok hp
  obtain ⟨f', hacc⟩ := (List.forall₂_iff_zip.mp hok.comments).2 hd
  cases hf.symm.trans hacc.found
  obtain ⟨q, hpos, hq⟩ := position_placed hacc.position
  have hentry := discussionEntry_posted hn hpos hacc hq (plain_fingerprint hok) (plain_head hrefs)
  refine ⟨_, hentry, ?_, commentKey_entry_iff hacc hq⟩
  intro a review found hreview hfp hfound hmem
  exact comments_mem hreview hfp hfound hmem hentry

end

/-! ### A file that moved -/

def movedTarget : RemoteTarget :=
  { sampleTarget with
    provider := .gitlab, repository := ⟨"gitlab.com", 7, "o", "n"⟩
    targetTip := "a1a1a1a1a1a1a1a1a1a1a1a1a1a1a1a1a1a1a1a1"
    comparisonBase := "b2b2b2b2b2b2b2b2b2b2b2b2b2b2b2b2b2b2b2b2"
    head := "c3c3c3c3c3c3c3c3c3c3c3c3c3c3c3c3c3c3c3c3" }

def movedPatch : Bytes := asBytes ("diff --git a/x b/y\nrename from x\nrename to y\n--- a/x\n" ++
  "+++ b/y\n@@ -1 +1 @@\n-a\n+b\n")

def movedFile : FileChange :=
  { sampleFile with
    id := ⟨"9f9367b05978fef11103cb5f4070b302f180604d98725583c6932cdeb0a9c42d"⟩
    newPath := some ⟨asBytes "y", by decide⟩, kind := .renamed }

def movedSnapshot : Snapshot :=
  { sampleSnapshot with
    id := ⟨"a0f614a1689661be75c3a4f8e0cc737de7c00dcef3e0e641c08566dee180bbb6"⟩
    patch := ⟨[movedFile]⟩, remote := some movedTarget }

/-- A draft on the only line of a side. -/
def movedDraft (id : String) (side : Side) : Draft :=
  { sampleDraft with id := ⟨id⟩, snapshot := movedSnapshot.id, file := movedFile.id, side }

def movedPosition (old new : Option Nat) : Json :=
  GitlabPosition.toJson ⟨"text", movedTarget.comparisonBase, movedTarget.targetTip,
    movedTarget.head, "x", "y", old, new, none⟩

def oldSideComment : PreparedComment :=
  ⟨⟨"d3"⟩, 2, "y", movedPosition (some 1) none, "note d1", .left, 1, 1, false⟩

def newSideComment : PreparedComment :=
  ⟨⟨"d4"⟩, 2, "y", movedPosition none (some 1), "note d1", .right, 1, 1, false⟩

def movedReview : PreparedReview :=
  { sampleReview "op-4" "01f74e95adf8028dce6814e2ebdcab650ff2555a3d9f676a0723e005252906bd" with
    snapshot := movedSnapshot.id, target := movedTarget
    comments := [oldSideComment, newSideComment] }

theorem movedSnapshot_verified : movedSnapshot.verifyIdentity sampleHashes = true := by
  rw [Snapshot.verifyIdentity, identity_written sampleHashes movedSnapshot rfl (by decide)]
  decide +kernel

theorem movedReview_fingerprint : movedReview.computeFingerprint sampleHashes
    (Gitlab.rules sampleHashes) = movedReview.fingerprint := by
  rw [computeFingerprint_written]
  decide +kernel

theorem moved_preparable : Preparable (Gitlab.rules sampleHashes) movedSnapshot
    [movedDraft "d3" .left, movedDraft "d4" .right] .approve "" movedTarget where
  remote := rfl
  provider := rfl
  writable := rfl
  single := rfl
  checked := rfl
  complete := rfl
  isOpen := rfl
  settled := rfl
  summarized := .inl rfl
  small := by decide

theorem movedComments_prepared : PreparedReview.prepareComments (Gitlab.rules sampleHashes)
    movedSnapshot movedTarget [] [movedDraft "d3" .left, movedDraft "d4" .right] =
      .ok movedReview.comments :=
  ok_of_toOption (rfl)

theorem movedReview_prepared : PreparedReview.prepare sampleHashes (Gitlab.rules sampleHashes)
    ⟨"op-4"⟩ movedSnapshot [movedDraft "d3" .left, movedDraft "d4" .right] .approve "" =
      .ok movedReview :=
  moved_preparable.prepare_eq (p := movedReview) rfl movedSnapshot_verified movedComments_prepared
    rfl movedReview_fingerprint

/-- The note GitLab lists for a comment. -/
def noteOf (c : PreparedComment) : Json :=
  .obj [("body", .str (postedBody movedReview c)), ("position", c.position.getD .null),
    ("author", .obj [("username", .str movedTarget.account)])]

theorem noted_noteOf (c : PreparedComment) : Noted movedReview c (noteOf c) := by
  constructor
  · simp [noteOf]
  · simp [noteOf, Json.get]
  · simp [noteOf, Json.get, movedReview]

theorem movedTarget_refs : usableRefs movedTarget := rfl

/-- The comment on the new side is recognised. -/
theorem newSideComment_recognised :
    ∃ entry, discussionEntry movedTarget movedReview.fingerprint (noteOf newSideComment) =
      .ok (some entry) ∧ commentKey entry = some newSideComment.key := by
  obtain ⟨entry, hentry, -, hiff⟩ := gitlab_comment_recognised_iff (d := movedDraft "d4" .right)
    (f := movedFile) movedReview_prepared movedTarget_refs (.tail _ (.head _))
    rfl (noted_noteOf newSideComment)
  refine ⟨entry, hentry, hiff.mpr ?_⟩
  simp [Recognisable, movedDraft, sampleDraft]

/-- The entry of the comment on the old side has the old path. -/
theorem oldSideComment_entry :
    (discussionEntry movedTarget movedReview.fingerprint
      (noteOf oldSideComment)).toOption.join.bind commentKey =
        some (.mk "x" "note d1" "LEFT" 1 1) := by
  have hok := prepare_ok movedReview_prepared
  have hmem : (movedDraft "d3" .left, oldSideComment) ∈
      [movedDraft "d3" .left, movedDraft "d4" .right].zip movedReview.comments := .head _
  obtain ⟨f, hacc⟩ := (List.forall₂_iff_zip.mp hok.comments).2 hmem
  obtain ⟨q, hpos, hq⟩ := position_placed hacc.position
  have hold : q.oldPath = "x" := by
    have hget := (position_get_paths q).1
    rw [← Option.some.inj hpos] at hget
    exact (Json.str.inj hget).symm
  have hentry := discussionEntry_posted (noted_noteOf oldSideComment) hpos hacc hq
    (plain_fingerprint hok) (plain_head movedTarget_refs)
  rw [if_neg (by simp [movedDraft, sampleDraft])] at hentry
  have hkey := commentKey_linesEntry oldSideComment q
  rw [show sidePath q oldSideComment.side = "x" from hold] at hkey
  calc (discussionEntry movedTarget movedReview.fingerprint
        (noteOf oldSideComment)).toOption.join.bind commentKey
    _ = commentKey (linesEntry oldSideComment q) := by
      rw [show discussionEntry movedTarget _ _ = _ from hentry]
      rfl
    _ = _ := hkey

/-- The comment on the old side of the same file, in the same review, is not: its entry has the old
path. -/
theorem oldSideComment_unrecognised :
    (parsePatch Sha256.sha256 movedPatch .default).toOption = some movedSnapshot.patch ∧
      PreparedReview.prepare sampleHashes (Gitlab.rules sampleHashes) ⟨"op-4"⟩ movedSnapshot
        [movedDraft "d3" .left, movedDraft "d4" .right] .approve "" = .ok movedReview ∧
      Noted movedReview oldSideComment (noteOf oldSideComment) ∧
      ((discussionEntry movedTarget movedReview.fingerprint
        (noteOf oldSideComment)).toOption.join.bind commentKey =
          some (.mk "x" "note d1" "LEFT" 1 1)) ∧
      oldSideComment.key = .mk "y" "note d1" "LEFT" 1 1 := by
  exact ⟨by decide +kernel, movedReview_prepared, noted_noteOf _, oldSideComment_entry, rfl⟩

end Proof
end Diffz
