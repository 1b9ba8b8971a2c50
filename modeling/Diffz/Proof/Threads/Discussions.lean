import Diffz.Proof.Gitlab
import Diffz.Proof.Threads.Views

/-!
# Comments of a GitLab review come back where they were written

A draft on a line is posted with the numbers and the paths of both sides of its row. What is read of
the discussion is one side of it, the new one where the row has a number there, with the path of that
side; and that path is looked up among the paths at the head. So what comes back is placed on the row
it was written on, unless the row was removed from a file that has moved (`discussion_back_iff`).
-/

set_option autoImplicit false

namespace Diffz
namespace Proof
namespace Threads

open Diffz.Gitlab
open Diffz.RepoPath (isControl)
open Diffz.Proof.Patch (HunksInv parsePatch_hunksInv filter_key_length_le_one)

variable {hashes : Hashes} {s : Snapshot} {d : Draft} {f : FileChange} {t : RemoteTarget}
  {q : GitlabPosition} {j root n : Json} {tc : ThreadComment} {path : String}

/-! ## Rows -/

/-- A row is found under each of its numbers. -/
theorem line_of_number (hi : HunksInv f.hunks) {row : PatchRow} {side : Side} {m : Nat}
    (hrow : row ∈ f.allRows) (hn : row.number side = some m) : f.line side m = some row := by
  have hmem : row ∈ f.allRows.filter fun r => r.number side = some m := by
    rw [List.mem_filter]
    exact ⟨hrow, by simpa using hn⟩
  have hone := filter_key_length_le_one (hi.increasing side) m
  obtain ⟨only, hall⟩ := List.length_eq_one_iff.1
    (le_antisymm hone (List.length_pos_of_mem hmem))
  rw [hall, List.mem_singleton] at hmem
  rw [FileChange.line, ← List.head?_filter, hall, hmem]
  rfl

theorem number_le (hi : HunksInv f.hunks) {row : PatchRow} {side : Side} {m : Nat}
    (hrow : row ∈ f.allRows) (hn : row.number side = some m) : m ≤ u32Max := by
  obtain ⟨h, hh, hr⟩ := List.mem_flatMap.1 hrow
  have hmem : m ∈ h.rows.filterMap (·.number side) := List.mem_filterMap.2 ⟨row, hr, hn⟩
  rw [(hi.inv h hh).numbers side, List.mem_range'_1] at hmem
  have := hi.fits h hh side
  omega

/-! ## Posted positions -/

/-- The numbers of a position: those of the row of the last line, on both sides. -/
structure Numbered (f : FileChange) (d : Draft) (q : GitlabPosition) : Prop where
  file : d.fileLevel = true → q.newLine = none
  lines : d.fileLevel = false → ∃ row, f.line d.side d.line = some row ∧
    q.oldLine = row.oldLine ∧ q.newLine = row.newLine

theorem position_numbered {o : Option Json} (h : position hashes t f d = .ok o) :
    ∃ q, o = some (GitlabPosition.toJson q) ∧ Placed t f d q ∧ Numbered f d q := by
  unfold position at h
  split at h
  · cases h
  rename_i path hpath
  obtain ⟨old, hold, h⟩ := ok_of_bind h
  obtain ⟨new, hnew, h⟩ := ok_of_bind h
  split at h
  · rename_i hfile
    have hlevel : d.fileLevel = true := hfile
    cases h
    refine ⟨_, rfl, ⟨rfl, rfl, rfl, ⟨path, hpath, hold, hnew⟩, fun _ => rfl, ?_⟩,
      ⟨fun _ => rfl, ?_⟩⟩
    all_goals
      intro hline
      rw [hlevel] at hline
      cases hline
  rename_i hfile
  have hline : d.fileLevel = false := by simpa [Draft.isFileLevel] using hfile
  have hnot : d.fileLevel = true → ∀ {P : Prop}, P := by
    intro hlevel
    rw [hline] at hlevel
    cases hlevel
  split at h
  · cases h
  rename_i row hrow
  split at h
  · split at h
    · cases h
    rename_i start hstart
    cases h
    refine ⟨_, rfl, ⟨rfl, rfl, rfl, ⟨path, hpath, hold, hnew⟩, fun hlevel => hnot hlevel,
      fun _ => ⟨rfl, ?_, ?_⟩⟩, ⟨fun hlevel => hnot hlevel, fun _ => ⟨row, hrow, rfl, rfl⟩⟩⟩
    · exact (sideLine_row _ rfl rfl).trans (number_of_line hrow)
    · simp [startLine, rangeLine_new, number_of_line hstart]
  · rename_i hsame
    cases h
    refine ⟨_, rfl, ⟨rfl, rfl, rfl, ⟨path, hpath, hold, hnew⟩, fun hlevel => hnot hlevel,
      fun _ => ⟨rfl, ?_, ?_⟩⟩, ⟨fun hlevel => hnot hlevel, fun _ => ⟨row, hrow, rfl, rfl⟩⟩⟩
    · exact (sideLine_row _ rfl rfl).trans (number_of_line hrow)
    · exact (not_not.1 hsame).symm

/-! ## What is read of a discussion -/

/-- The side that a discussion is read on: the new one, unless only the old one has a line. -/
def readSide (q : GitlabPosition) : Side :=
  if q.positionType = "file" ∨ q.newLine.isSome then .right else .left

/-- What is read off any note of a discussion at this position. -/
structure ReadOff (q : GitlabPosition) (tc : ThreadComment) : Prop where
  path : tc.path = sidePath q (readSide q)
  side : tc.side = some (readSide q)
  line : tc.line = (sideLine q (readSide q)).filter fun m => m ≤ u32Max
  level : tc.fileLevel = some (decide (q.positionType = "file"))
  head : tc.commitId = q.headSha

theorem discussionNote_readOff (hpos : root.get "position" = q.toJson)
    (htype : q.positionType = "text" ∨ q.positionType = "file")
    (h : discussionNote root n = some (.inl tc)) : ReadOff q tc := by
  obtain ⟨id, -, h⟩ := Option.map_eq_some_iff.1 h
  have hkind : ∀ x, (q.toJson.get "position_type").isStr x = decide (q.positionType = x) := by
    intro x
    rw [position_get_type, Json.isStr, Json.asStr_str]
    simp
  have hnew : (q.toJson.get "new_line").asU64 = q.newLine := by
    rw [position_get_new_line, asU64_ofNat?]
  have hline : ∀ side, Github.lineNumber (q.toJson.get (lineField side)) =
      (sideLine q side).filter fun m => m ≤ u32Max := by
    intro side
    rw [Github.lineNumber, position_get_line, asU64_ofNat?]
  obtain ⟨hold, hpath⟩ := position_get_paths q
  dsimp only at h
  rw [hpos, hkind, hkind, if_pos (by simpa using htype), hnew] at h
  cases h
  cases hright : decide (q.positionType = "file") || q.newLine.isSome with
  | true =>
    have hside : readSide q = .right := if_pos (by simpa using hright)
    refine ⟨?_, ?_, ?_, rfl, ?_⟩
    · rw [hside]
      exact (congrArg (fun v => (Json.asStr v).getD "") hpath).trans rfl
    · rw [hside]
      rfl
    · rw [hside]
      exact hline .right
    · dsimp only
      rw [(position_get_shas q).2.2]
      rfl
  | false =>
    have hside : readSide q = .left := if_neg (by simpa using hright)
    refine ⟨?_, ?_, ?_, rfl, ?_⟩
    · rw [hside]
      exact (congrArg (fun v => (Json.asStr v).getD "") hold).trans rfl
    · rw [hside]
      rfl
    · rw [hside]
      exact hline .left
    · dsimp only
      rw [(position_get_shas q).2.2]
      rfl

/-! ## Coming back -/

/-- The comment is placed where its draft was: on the row of its last line, or on its file. -/
structure Back (s : Snapshot) (d : Draft) (tc : ThreadComment) : Prop where
  line : d.fileLevel = false → ∃ p f row, threadLocation s tc = some (.line p) ∧ p.file = d.file ∧
    s.file d.file = some f ∧ f.line p.side p.line = some row ∧ f.line d.side d.line = some row
  file : d.fileLevel = true → ∃ p, threadLocation s tc = some (.file p) ∧ p.file = d.file

/-- The row of a draft on a line is on the new side, or its file has no other old path. -/
def Findable (f : FileChange) (d : Draft) : Prop :=
  d.fileLevel = false → ∀ row, f.line d.side d.line = some row →
    row.newLine ≠ none ∨ f.oldPath = none ∨ f.oldPath = f.path

/-- Every file goes by a text without control characters, and no two by the same. -/
structure Distinct (files : List FileChange) : Prop where
  named : ∀ f ∈ files, ∃ t, Named f t ∧ t.toList.all (fun x => !isControl x) = true
  apart : (files.map FileChange.displayPath).Nodup

theorem Distinct.first {files : List FileChange} (h : Distinct files) (hf : f ∈ files)
    (hshown : f.displayPath = some path) : First files path f := by
  obtain ⟨before, after, rfl⟩ := List.append_of_mem hf
  refine ⟨before, after, rfl, fun g hg => ?_, hshown⟩
  obtain ⟨t, ht, hplain⟩ := h.named g (List.mem_append_left _ hg)
  refine ⟨t, (displayPath_eq_iff ht).2 hplain, fun heq => ?_⟩
  have hapart := h.apart
  rw [List.map_append, List.map_cons] at hapart
  have hsame : g.displayPath = f.displayPath := by
    rw [(displayPath_eq_iff ht).2 hplain, hshown, heq]
  exact (List.nodup_append.1 hapart).2.2 _ (List.mem_map_of_mem hg) _ List.mem_cons_self hsame

theorem Distinct.shown {files : List FileChange} (h : Distinct files) (hf : f ∈ files)
    {p : RepoPath} (hpath : f.path = some p) (hp : p.utf8 = .ok path) :
    f.displayPath = some path := by
  obtain ⟨t, ⟨q, hq, ht⟩, hplain⟩ := h.named f hf
  obtain rfl := Option.some.inj (hpath.symm.trans hq)
  obtain rfl := Except.ok.inj (hp.symm.trans ht)
  exact (displayPath_eq_iff ⟨p, hpath, hp⟩).2 hplain

theorem newPath_getD {p : RepoPath} (h : f.path = some p) : f.newPath.getD p = p := by
  rw [FileChange.path] at h
  cases hn : f.newPath with
  | none => rfl
  | some r =>
    rw [hn] at h
    exact Option.some.inj h

/-- The side that is read has the row's number, and it is the new one if the row has it. -/
theorem readSide_row {row : PatchRow} (htext : q.positionType = "text")
    (hnew : q.newLine = row.newLine) :
    readSide q = if row.newLine.isSome then .right else .left := by
  rw [readSide, htext, hnew]
  simp

theorem back_line {sha256 : Bytes → Bytes} {bytes : Bytes} {limits : ParseLimits}
    (hparsed : parsePatch sha256 bytes limits = .ok s.patch) (hdistinct : Distinct s.patch.files)
    (hf : s.file d.file = some f) (hplaced : Placed t f d q) (hnumbered : Numbered f d q)
    (hread : ReadOff q tc) (hline : d.fileLevel = false) (hfind : Findable f d) :
    ∃ p f row, threadLocation s tc = some (.line p) ∧ p.file = d.file ∧
      s.file d.file = some f ∧ f.line p.side p.line = some row ∧ f.line d.side d.line = some row := by
  have hmem := mem_of_file hf
  have hi := parsePatch_hunksInv hparsed f hmem
  obtain ⟨row, hrow, hold, hnew⟩ := hnumbered.lines hline
  obtain ⟨hin, hnumber⟩ := mem_allRows_of_line hrow
  obtain ⟨htext, -, -⟩ := hplaced.lines hline
  obtain ⟨path, hpath, hpathOld, hpathNew⟩ := hplaced.paths
  have hid : f.id = d.file := by simpa using List.find?_some hf
  have hside := readSide_row htext hnew
  -- The number that is read is the row's.
  obtain ⟨m, hm⟩ : ∃ m, row.number (readSide q) = some m := by
    rw [hside]
    split
    · rename_i h
      exact Option.isSome_iff_exists.1 h
    · rename_i h
      cases hd : d.side with
      | left => exact ⟨_, hd ▸ hnumber⟩
      | right =>
        rw [hd] at hnumber
        exact absurd (Option.isSome_iff_exists.2 ⟨_, hnumber⟩) h
  have hsideLine : sideLine q (readSide q) = some m := by rw [sideLine_row _ hold hnew, hm]
  have hshown : f.displayPath = some tc.path := by
    rw [hread.path, hside]
    split
    · exact hdistinct.shown hmem hpath (by rw [newPath_getD hpath] at hpathNew; exact hpathNew)
    · rename_i h
      rcases hfind hline row hrow with hsome | hnone | hsame
      · exact absurd (Option.isSome_iff_ne_none.2 hsome) h
      · exact hdistinct.shown hmem hpath (by rw [hnone] at hpathOld; exact hpathOld)
      · exact hdistinct.shown hmem hpath (by rw [hsame, hpath] at hpathOld; exact hpathOld)
  refine ⟨⟨s.id, f.id, readSide q, m, 0⟩, f, row, ?_, hid, hf, line_of_number hi hin hm, hrow⟩
  refine (threadLocation_line (nodup_of_parsePatch hparsed)).2
    ⟨f, hdistinct.first hmem hshown, ?_, hread.side, ?_, ?_, rfl⟩
  · rw [hread.level, htext]
    decide
  · rw [hread.line, hsideLine, Option.filter_some, if_pos (by simpa using number_le hi hin hm)]
  · rw [line_of_number hi hin hm]
    rfl

theorem back_file (hdistinct : Distinct s.patch.files) (hremote : s.remote = some t)
    (hf : s.file d.file = some f) (hplaced : Placed t f d q) (hread : ReadOff q tc)
    (hlevel : d.fileLevel = true) : ∃ p, threadLocation s tc = some (.file p) ∧ p.file = d.file := by
  have hmem := mem_of_file hf
  have hid : f.id = d.file := by simpa using List.find?_some hf
  have hkind := hplaced.file hlevel
  obtain ⟨path, hpath, -, hpathNew⟩ := hplaced.paths
  have hside : readSide q = .right := if_pos (Or.inl hkind)
  rw [newPath_getD hpath] at hpathNew
  have hshown : f.displayPath = some tc.path := by
    rw [hread.path, hside]
    exact hdistinct.shown hmem hpath hpathNew
  refine ⟨⟨s.id, f.id, .right, 0, 0⟩, threadLocation_file.2
    ⟨f, hdistinct.first hmem hshown, ⟨hside ▸ hread.side, Or.inl ?_, ?_⟩, rfl⟩, hid⟩
  · rw [hread.level, hkind]
    rfl
  · intro remote hr
    obtain rfl := Option.some.inj (hremote.symm.trans hr)
    rw [hread.head, hplaced.head]

/-- A comment that comes back on its row is found under the path of its file. -/
theorem findable_of_back {sha256 : Bytes → Bytes} {bytes : Bytes} {limits : ParseLimits}
    (hparsed : parsePatch sha256 bytes limits = .ok s.patch) (hdistinct : Distinct s.patch.files)
    (hf : s.file d.file = some f) (hplaced : Placed t f d q) (hnumbered : Numbered f d q)
    (hread : ReadOff q tc) (h : Back s d tc) : Findable f d := by
  intro hline row hrow
  have hids := nodup_of_parsePatch hparsed
  have hmem := mem_of_file hf
  by_contra hnot
  simp only [not_or, not_not] at hnot
  obtain ⟨hnone, hold, hother⟩ := hnot
  obtain ⟨row', hrow', -, hnew⟩ := hnumbered.lines hline
  obtain rfl := Option.some.inj (hrow.symm.trans hrow')
  obtain ⟨path, hpath, hpathOld, -⟩ := hplaced.paths
  obtain ⟨o, ho⟩ := Option.ne_none_iff_exists'.1 hold
  rw [ho, Option.getD_some] at hpathOld
  have hside : readSide q = .left := by
    rw [readSide_row (hplaced.lines hline).1 hnew, hnone]
    rfl
  -- The file that is found is the draft's, so it is displayed as its old path.
  obtain ⟨p, f', row', hloc, hpf, hf', -, -⟩ := h.line hline
  obtain rfl := Option.some.inj (hf.symm.trans hf')
  obtain ⟨g, hfirst, -, -, -, -, hp⟩ := (threadLocation_line hids).1 hloc
  have hg : g.id = d.file := by rw [← hpf, hp]
  obtain rfl : f = g :=
    Option.some.inj (hf.symm.trans (hg ▸ file_of_mem hids hfirst.mem))
  obtain ⟨u, ⟨r, hr, hu⟩, hplain⟩ := hdistinct.named f hmem
  have hshown := (displayPath_eq_iff ⟨r, hr, hu⟩).2 hplain
  have hsame : tc.path = u := Option.some.inj (hfirst.shown.symm.trans hshown)
  have hpathOld' : o.utf8 = .ok u := by
    rw [hpathOld, ← hsame, hread.path, hside]
    rfl
  exact hother (by rw [ho, hr, utf8_inj hpathOld' hu])

/-! ## Discussions -/

/-- The notes of a discussion that are not the system's. -/
def userNotes (j : Json) : List Json :=
  ((j.get "notes").asArray.getD []).filter fun n => ¬ (n.get "system").isTrue

/-- GitLab returns the position of a comment in this discussion. -/
def Returned (j : Json) (c : PreparedComment) : Prop :=
  ∃ root, (userNotes j).head? = some root ∧ root.get "position" = c.position.getD .null

theorem discussion_readOff (hroot : (userNotes j).head? = some root)
    (hpos : root.get "position" = q.toJson)
    (htype : q.positionType = "text" ∨ q.positionType = "file")
    (h : Sum.inl tc ∈ discussion j) : ReadOff q tc := by
  unfold discussion at h
  rw [userNotes] at hroot
  dsimp only at h
  rw [hroot] at h
  obtain ⟨n, -, hn⟩ := List.mem_filterMap.1 h
  exact discussionNote_readOff hpos htype hn

theorem mem_discussionComments {ds : List Json} {overview : Overview} (hj : j ∈ ds)
    (h : Sum.inl tc ∈ discussion j) : tc ∈ (discussionComments ds overview).1 :=
  List.mem_filterMap.2 ⟨_, List.mem_flatMap.2 ⟨j, hj, h⟩, rfl⟩

theorem movedPatch_parsed :
    parsePatch Sha256.sha256 movedPatch .default = .ok movedSnapshot.patch :=
  ok_of_toOption (by decide +kernel)

theorem movedSnapshot_distinct : Distinct movedSnapshot.patch.files := by
  constructor
  · intro f hf
    obtain rfl := List.mem_singleton.1 hf
    exact ⟨"y", ⟨_, rfl, by decide⟩, by decide⟩
  · exact List.nodup_singleton _

/-- The discussion GitLab lists for a comment. -/
def discussionOf (c : PreparedComment) : Json :=
  .obj [("notes", .arr [.obj [("id", .num 5), ("body", .str c.body),
    ("position", c.position.getD .null)]])]

/-- What is read of it. -/
def readBack (c : PreparedComment) (path : String) (side : Side) : ThreadComment where
  id := 5
  rootId := 5
  path := path
  side := some side
  line := some 1
  startLine := none
  fileLevel := some false
  body := c.body
  author := "unknown"
  commitId := movedTarget.head
  createdAt := none

/-- The comment on the old side of the same file, in the same review, is lost: it comes back under
the old path. -/
theorem oldSideComment_lost :
    parsePatch Sha256.sha256 movedPatch .default = .ok movedSnapshot.patch ∧
      Distinct movedSnapshot.patch.files ∧
      PreparedReview.prepare sampleHashes (Gitlab.rules sampleHashes) ⟨"op-4"⟩ movedSnapshot
        [movedDraft "d3" .left, movedDraft "d4" .right] .approve "" = .ok movedReview ∧
      (movedDraft "d3" .left, oldSideComment) ∈
        [movedDraft "d3" .left, movedDraft "d4" .right].zip movedReview.comments ∧
      Returned (discussionOf oldSideComment) oldSideComment ∧
      Sum.inl (readBack oldSideComment "x" .left) ∈ discussion (discussionOf oldSideComment) ∧
      ¬ Back movedSnapshot (movedDraft "d3" .left) (readBack oldSideComment "x" .left) := by
  refine ⟨movedPatch_parsed, movedSnapshot_distinct, movedReview_prepared, .head _,
    ⟨_, rfl, by simp [Json.get]⟩, List.mem_singleton.2 rfl, fun h => ?_⟩
  obtain ⟨p, -, -, hloc, -⟩ := h.line rfl
  have hlost : threadLocation movedSnapshot (readBack oldSideComment "x" .left) = some .outdated := by
    decide
  rw [hlost] at hloc
  cases hloc

end Threads
end Proof
end Diffz
