import Diffz.Adapters.Github
import Diffz.Proof.Threads.Places

/-!
# The two views of where a thread is

`threadLocation` places a comment, and `threadRootsAt` lists the threads of a place. The second one
goes by the range of a comment and the first by its last line, and a comment on a whole file may have
lines as well; `Consistent` are the comments for which the two agree (`threadRoots_agree_iff`).
-/

set_option autoImplicit false

namespace Diffz
namespace Proof
namespace Threads

open Diffz.RepoPath
open Diffz.Proof.Patch (HunksInv parsePatch_hunksInv)

variable {s : Snapshot} {c : ThreadComment} {f g : FileChange} {p : SourcePoint} {row : PatchRow}
  {side : Side} {n r : Nat} {roots : List Nat} {path : String}

/-! ## Threads of a line -/

/-- The comment runs over this line of the files that are displayed as `path`. -/
def RunsOver (c : ThreadComment) (path : String) (side : Side) (n : Nat) : Prop :=
  c.path = path ∧ c.side = some side ∧ c.covers n = true

/-- The comment is shown at this line of the file: it runs over the line, or over the other number of
a context row. -/
def ShownAt (f : FileChange) (path : String) (c : ThreadComment) (side : Side) (n : Nat) : Prop :=
  RunsOver c path side n ∨ ∃ row other m, f.line side n = some row ∧ row.kind = .context ∧
    otherLine row side = some (other, m) ∧ RunsOver c path other m

theorem mem_pushNew {root : Nat} : r ∈ pushNew roots root ↔ r ∈ roots ∨ r = root := by
  unfold pushNew
  split
  · rename_i h
    constructor
    · exact Or.inl
    · rintro (hr | rfl)
      · exact hr
      · exact h
  · rw [List.mem_append, List.mem_singleton]

theorem mem_foldl_pushNew (l : List Nat) : r ∈ l.foldl pushNew roots ↔ r ∈ roots ∨ r ∈ l := by
  induction l generalizing roots with
  | nil => simp
  | cons x l ih => rw [List.foldl_cons, ih, mem_pushNew, List.mem_cons, or_assoc]

theorem mem_threadsAt {comments : List ThreadComment} : r ∈ threadsAt comments path side n ↔
    ∃ c ∈ comments, RunsOver c path side n ∧ c.rootId = r := by
  have hfold : ∀ (cs : List ThreadComment) (roots : List Nat), r ∈ cs.foldl (fun roots c =>
      if c.path = path ∧ c.side = some side ∧ c.covers n then pushNew roots c.rootId else roots)
        roots ↔ r ∈ roots ∨ ∃ c ∈ cs, RunsOver c path side n ∧ c.rootId = r := by
    intro cs
    induction cs with
    | nil => simp
    | cons c cs ih =>
      intro roots
      simp only [List.foldl_cons, ih, List.mem_cons, exists_eq_or_imp, ← or_assoc]
      refine or_congr_left ?_
      split
      · rename_i h
        rw [mem_pushNew, eq_comm (a := r), RunsOver, and_iff_right h]
      · rename_i h
        rw [or_iff_left fun hr => h hr.1]
  rw [threadsAt, hfold]
  simp

theorem threadRootsAt_unknown (h : s.file p.file = none) : threadRootsAt s p = some [] := by
  rw [threadRootsAt, h]

theorem threadRootsAt_pathless (hf : s.file p.file = some f) (h : f.displayPath = none) :
    threadRootsAt s p = none := by
  rw [threadRootsAt, hf]
  dsimp only
  rw [h]

/-- **The threads of a line are those whose comments are shown there.** -/
theorem threadRootsAt_line (hf : s.file p.file = some f) (hshown : f.displayPath = some path)
    (hp : ¬ (p.side = .right ∧ p.line = 0)) : ∃ roots, threadRootsAt s p = some roots ∧
      ∀ r, r ∈ roots ↔ ∃ c ∈ s.comments, ShownAt f path c p.side p.line ∧ c.rootId = r := by
  rw [threadRootsAt, hf]
  dsimp only
  rw [hshown]
  dsimp only
  rw [if_neg hp]
  cases hother : ((f.line p.side p.line).filter fun r => r.kind = .context).bind
      fun row => otherLine row p.side with
  | none =>
    refine ⟨_, rfl, fun r => ?_⟩
    rw [mem_threadsAt]
    refine exists_congr fun c => and_congr_right fun _ => and_congr_left fun _ => ?_
    refine ⟨Or.inl, fun h => h.resolve_right ?_⟩
    rintro ⟨row, other, m, hrow, hkind, hm, -⟩
    rw [hrow, Option.filter_some, if_pos (by simp [hkind]), Option.bind_some, hm] at hother
    cases hother
  | some place =>
    obtain ⟨other, m⟩ := place
    obtain ⟨row, hfilter, hm⟩ := Option.bind_eq_some_iff.1 hother
    obtain ⟨hrow, hkind⟩ := Option.filter_eq_some_iff.1 hfilter
    refine ⟨_, rfl, fun r => ?_⟩
    rw [mem_foldl_pushNew, mem_threadsAt, mem_threadsAt, ← exists_or]
    refine exists_congr fun c => ?_
    rw [← and_or_left, ← or_and_right]
    refine and_congr_right fun _ => and_congr_left fun _ => or_congr_right ?_
    constructor
    · intro h
      exact ⟨row, other, m, hrow, of_decide_eq_true hkind, hm, h⟩
    · rintro ⟨row', other', m', hrow', -, hm', h⟩
      obtain rfl := Option.some.inj (hrow.symm.trans hrow')
      obtain ⟨rfl, rfl⟩ := Prod.mk.inj (Option.some.inj (hm.symm.trans hm'))
      exact h

theorem mem_fileRoots {comments : List ThreadComment}
    (hnever : ∀ c ∈ comments, c.path = path → threadLocation s c ≠ none) :
    ∃ out, fileRoots s path roots comments = some out ∧ ∀ r, r ∈ out ↔ r ∈ roots ∨
      ∃ c ∈ comments, c.path = path ∧ (∃ q, threadLocation s c = some (.file q)) ∧ c.rootId = r := by
  induction comments generalizing roots with
  | nil => exact ⟨roots, rfl, fun r => by simp⟩
  | cons c comments ih =>
    have ih' := fun roots' => @ih roots' fun c' hc' => hnever c' (List.mem_cons_of_mem c hc')
    rw [fileRoots]
    simp only [List.mem_cons, exists_eq_or_imp, ← or_assoc]
    split
    · rename_i hpath
      cases hloc : threadLocation s c with
      | none => exact absurd hloc (hnever c List.mem_cons_self hpath)
      | some place =>
        cases place with
        | file q =>
          obtain ⟨out, hout, hmem⟩ := ih' (pushNew roots c.rootId)
          refine ⟨out, hout, fun r => ?_⟩
          rw [hmem, mem_pushNew, eq_comm (a := r)]
          simp [hpath]
        | line q =>
          obtain ⟨out, hout, hmem⟩ := ih' roots
          exact ⟨out, hout, fun r => by rw [hmem]; simp⟩
        | outdated =>
          obtain ⟨out, hout, hmem⟩ := ih' roots
          exact ⟨out, hout, fun r => by rw [hmem]; simp⟩
    · rename_i hpath
      obtain ⟨out, hout, hmem⟩ := ih' roots
      exact ⟨out, hout, fun r => by rw [hmem]; simp [hpath]⟩

/-! ## Comments on a whole file -/

/-- The comment is on a whole file as the snapshot has it. -/
structure WholeFile (s : Snapshot) (c : ThreadComment) : Prop where
  side : c.side = some .right
  level : c.fileLevel = some true ∨ (c.fileLevel = none ∧ c.line = none)
  head : ∀ remote, s.remote = some remote → c.commitId = remote.head

/-- **Which comments have a file.** -/
theorem threadLocation_file : threadLocation s c = some (.file p) ↔
    ∃ f, First s.patch.files c.path f ∧ WholeFile s c ∧ p = ⟨s.id, f.id, .right, 0, 0⟩ := by
  have hhead : s.remote.any (fun remote => c.commitId ≠ remote.head) = false ↔
      ∀ remote, s.remote = some remote → c.commitId = remote.head := by
    cases s.remote <;> simp
  have hlevel : ((c.line.filter fun _ => c.fileLevel ≠ some true) = none ∧
      c.fileLevel.getD c.line.isNone = true) ↔
        (c.fileLevel = some true ∨ (c.fileLevel = none ∧ c.line = none)) := by
    cases c.fileLevel with
    | none => cases c.line <;> simp
    | some b => cases b <;> cases c.line <;> simp
  rw [threadLocation, Option.map_eq_some_iff]
  constructor
  · rintro ⟨file, hfile, h⟩
    split at h
    · rename_i f side hside
      unfold locationIn at h
      split at h
      · dsimp only at h
        split at h
        · cases h
        · cases h
      · rename_i hnone
        split at h
        · cases h
        · rename_i hnot
          cases h
          simp only [not_or, not_not, Bool.not_eq_false, Bool.not_eq_true] at hnot
          obtain ⟨rfl, hget, hremote⟩ := hnot
          exact ⟨f, fileShownAs_eq_iff.1 hfile,
            ⟨hside, hlevel.1 ⟨hnone, hget⟩, hhead.1 hremote⟩, rfl⟩
    · cases h
  · rintro ⟨f, hfirst, ⟨hside, hl, hremote⟩, rfl⟩
    obtain ⟨hnone, hget⟩ := hlevel.2 hl
    refine ⟨some f, fileShownAs_eq_iff.2 hfirst, ?_⟩
    rw [hside]
    unfold locationIn
    rw [hnone]
    dsimp only
    rw [if_neg]
    rintro (h | h | h)
    · exact h rfl
    · rw [hget] at h
      cases h
    · rw [hhead.2 hremote] at h
      cases h

theorem threadLocation_ne_none (h : First s.patch.files c.path f) : threadLocation s c ≠ none := by
  rw [threadLocation, fileShownAs_eq_iff.2 h]
  exact Option.some_ne_none _

/-- **The threads of a file are those with a comment on the whole of it.** -/
theorem threadRootsAt_file (hf : s.file p.file = some f) (hfirst : First s.patch.files path f)
    (hp : p.side = .right ∧ p.line = 0) : ∃ roots, threadRootsAt s p = some roots ∧
      ∀ r, r ∈ roots ↔ ∃ c ∈ s.comments, c.path = path ∧
        (∃ q, threadLocation s c = some (.file q)) ∧ c.rootId = r := by
  have hshown : f.displayPath = some path := by
    obtain ⟨_, _, _, _, h⟩ := hfirst
    exact h
  obtain ⟨roots, hroots, hmem⟩ := @mem_fileRoots s [] path s.comments
    fun c _ hc => threadLocation_ne_none (hc ▸ hfirst)
  refine ⟨roots, ?_, fun r => ?_⟩
  · rw [threadRootsAt, hf]
    dsimp only
    rw [hshown]
    dsimp only
    rw [if_pos hp, hroots]
  · rw [hmem]
    simp

/-! ## The two views -/

/-- What is shown at a place has the comments that are placed there, and a comment on a whole file
is shown at no line. -/
structure Agrees (s : Snapshot) (c : ThreadComment) : Prop where
  line : ∀ p, threadLocation s c = some (.line p) →
    ∃ roots, threadRootsAt s p = some roots ∧ c.rootId ∈ roots
  file : ∀ p, threadLocation s c = some (.file p) →
    ∃ roots, threadRootsAt s p = some roots ∧ c.rootId ∈ roots
  apart : ∀ p, threadLocation s c = some (.file p) → ∀ q roots, ¬ (q.side = .right ∧ q.line = 0) →
    threadRootsAt { s with comments := [c] } q = some roots → c.rootId ∉ roots

/-- A comment on a line does not end before it starts, or another one of its thread is shown there.
A comment on a whole file runs over no line. -/
structure Consistent (s : Snapshot) (c : ThreadComment) : Prop where
  line : ∀ f side n, First s.patch.files c.path f → c.fileLevel ≠ some true → c.side = some side →
    c.line = some n → (f.line side n).isSome = true → c.startLine.getD n ≤ n ∨
      ∃ d ∈ s.comments, ShownAt f c.path d side n ∧ d.rootId = c.rootId
  file : ∀ f, First s.patch.files c.path f → WholeFile s c → ∀ n, c.covers n = true → n = 0

theorem number_pos (hi : HunksInv f.hunks) (hrow : row ∈ f.allRows) (hn : row.number side = some n) :
    0 < n := by
  obtain ⟨h, hh, hr⟩ := List.mem_flatMap.1 hrow
  have hmem : n ∈ h.rows.filterMap (·.number side) := List.mem_filterMap.2 ⟨row, hr, hn⟩
  rw [(hi.inv h hh).numbers side, List.mem_range'_1] at hmem
  have := hi.pos h hh side (by omega)
  omega

theorem mem_allRows_of_line (h : f.line side n = some row) :
    row ∈ f.allRows ∧ row.number side = some n :=
  ⟨List.mem_of_find?_eq_some h, by simpa using List.find?_some h⟩

theorem covers_line (h : c.line = some n) : c.covers n = true ↔ c.startLine.getD n ≤ n := by
  rw [ThreadComment.covers, h]
  simp

theorem otherLine_number {other : Side} {m : Nat} (h : otherLine row side = some (other, m)) :
    row.number other = some m := by
  cases side with
  | left =>
    obtain ⟨k, hk, heq⟩ := Option.map_eq_some_iff.1 h
    cases heq
    exact hk
  | right =>
    obtain ⟨k, hk, heq⟩ := Option.map_eq_some_iff.1 h
    cases heq
    exact hk

theorem mem_of_file {id : FileId} (h : s.file id = some f) : f ∈ s.patch.files :=
  List.mem_of_find?_eq_some h

theorem First.shown {files : List FileChange} (h : First files path f) :
    f.displayPath = some path := by
  obtain ⟨_, _, _, _, hshown⟩ := h
  exact hshown

/-- A place that has a row is not the place of a file. -/
theorem not_file_place (hi : HunksInv f.hunks) (h : (f.line side n).isSome = true) :
    ¬ (side = .right ∧ n = 0) := by
  obtain ⟨row, hrow⟩ := Option.isSome_iff_exists.1 h
  obtain ⟨hmem, hn⟩ := mem_allRows_of_line hrow
  have := number_pos hi hmem hn
  omega

theorem agrees_line (hids : (s.patch.files.map (·.id)).Nodup)
    (hinv : ∀ f ∈ s.patch.files, HunksInv f.hunks) (hc : c ∈ s.comments) (h : Consistent s c)
    (hloc : threadLocation s c = some (.line p)) :
    ∃ roots, threadRootsAt s p = some roots ∧ c.rootId ∈ roots := by
  obtain ⟨f, hfirst, hlevel, hside, hline, hrow, hp⟩ := (threadLocation_line hids).1 hloc
  have hfile : s.file p.file = some f := by
    rw [hp]
    exact file_of_mem hids hfirst.mem
  obtain ⟨roots, hroots, hmem⟩ := threadRootsAt_line hfile hfirst.shown
    (not_file_place (hinv f hfirst.mem) hrow)
  refine ⟨roots, hroots, (hmem c.rootId).2 ?_⟩
  rcases h.line f p.side p.line hfirst hlevel hside hline hrow with hstart | ⟨d, hd, hshown, hroot⟩
  · exact ⟨c, hc, Or.inl ⟨rfl, hside, (covers_line hline).2 hstart⟩, rfl⟩
  · exact ⟨d, hd, hshown, hroot⟩

theorem agrees_file (hids : (s.patch.files.map (·.id)).Nodup) (hc : c ∈ s.comments)
    (hloc : threadLocation s c = some (.file p)) :
    ∃ roots, threadRootsAt s p = some roots ∧ c.rootId ∈ roots := by
  obtain ⟨f, hfirst, -, rfl⟩ := threadLocation_file.1 hloc
  have hfile : s.file f.id = some f := file_of_mem hids hfirst.mem
  obtain ⟨roots, hroots, hmem⟩ :=
    @threadRootsAt_file s f ⟨s.id, f.id, .right, 0, 0⟩ c.path hfile hfirst ⟨rfl, rfl⟩
  exact ⟨roots, hroots, (hmem c.rootId).2 ⟨c, hc, rfl, ⟨_, hloc⟩, rfl⟩⟩

theorem agrees_apart (hinv : ∀ f ∈ s.patch.files, HunksInv f.hunks) (h : Consistent s c)
    (hloc : threadLocation s c = some (.file p)) {q : SourcePoint}
    (hq : ¬ (q.side = .right ∧ q.line = 0))
    (hroots : threadRootsAt { s with comments := [c] } q = some roots) : c.rootId ∉ roots := by
  obtain ⟨f, hfirst, hwhole, -⟩ := threadLocation_file.1 hloc
  have hzero := h.file f hfirst hwhole
  cases hg : s.file q.file with
  | none =>
    rw [@threadRootsAt_unknown { s with comments := [c] } q hg] at hroots
    obtain rfl := Option.some.inj hroots
    exact List.not_mem_nil
  | some g =>
    intro hmem
    cases hshown : g.displayPath with
    | none =>
      rw [@threadRootsAt_pathless { s with comments := [c] } g q hg hshown] at hroots
      cases hroots
    | some path =>
      obtain ⟨roots', hroots', hiff⟩ :=
        @threadRootsAt_line { s with comments := [c] } g q path hg hshown hq
      obtain rfl := Option.some.inj (hroots.symm.trans hroots')
      obtain ⟨d, hd, hat, -⟩ := (hiff c.rootId).1 hmem
      obtain rfl := List.mem_singleton.1 hd
      rcases hat with ⟨-, hside, hcovers⟩ | ⟨row, other, m, hrow, -, hother, -, -, hcovers⟩
      · obtain heq : Side.right = q.side := Option.some.inj (hwhole.side.symm.trans hside)
        exact hq ⟨heq.symm, hzero _ hcovers⟩
      · have hpos := number_pos (hinv g (mem_of_file hg)) (mem_allRows_of_line hrow).1
          (otherLine_number hother)
        exact absurd (hzero m hcovers) (by omega)

theorem consistent_of_agrees (hids : (s.patch.files.map (·.id)).Nodup)
    (hinv : ∀ f ∈ s.patch.files, HunksInv f.hunks) (h : Agrees s c) : Consistent s c := by
  refine ⟨?_, ?_⟩
  · intro f side n hfirst hlevel hside hline hrow
    have hloc := (@threadLocation_line s c ⟨s.id, f.id, side, n, 0⟩ hids).2
      ⟨f, hfirst, hlevel, hside, hline, hrow, rfl⟩
    obtain ⟨roots, hroots, hin⟩ := h.line _ hloc
    have hfile : s.file f.id = some f := file_of_mem hids hfirst.mem
    obtain ⟨roots', hroots', hmem⟩ :=
      @threadRootsAt_line s f ⟨s.id, f.id, side, n, 0⟩ c.path hfile hfirst.shown
        (not_file_place (hinv f hfirst.mem) hrow)
    obtain rfl := Option.some.inj (hroots.symm.trans hroots')
    exact Or.inr ((hmem c.rootId).1 hin)
  · intro f hfirst hwhole n hcovers
    by_contra hne
    have hloc := (@threadLocation_file s c ⟨s.id, f.id, .right, 0, 0⟩).2 ⟨f, hfirst, hwhole, rfl⟩
    have hfile : s.file f.id = some f := file_of_mem hids hfirst.mem
    obtain ⟨roots, hroots, hmem⟩ :=
      @threadRootsAt_line { s with comments := [c] } f ⟨s.id, f.id, .right, n, 0⟩ c.path hfile
        hfirst.shown (fun hplace => hne hplace.2)
    refine h.apart _ hloc ⟨s.id, f.id, .right, n, 0⟩ roots (fun hplace => hne hplace.2) hroots ?_
    exact (hmem c.rootId).2
      ⟨c, List.mem_singleton_self c, Or.inl ⟨rfl, hwhole.side, hcovers⟩, rfl⟩

/-- **Which comments the two views agree on.** -/
theorem threadRoots_agree_iff {sha256 : Bytes → Bytes} {bytes : Bytes} {limits : ParseLimits}
    (hparsed : parsePatch sha256 bytes limits = .ok s.patch) (hc : c ∈ s.comments) :
    Agrees s c ↔ Consistent s c := by
  have hids := nodup_of_parsePatch hparsed
  have hinv := parsePatch_hunksInv hparsed
  exact ⟨consistent_of_agrees hids hinv, fun h =>
    ⟨fun _ hloc => agrees_line hids hinv hc h hloc, fun _ hloc => agrees_file hids hc hloc,
      fun _ hloc _ _ hq hroots => agrees_apart hinv h hloc hq hroots⟩⟩

/-! ### A comment that ends before it starts -/

/-- A comment as GitHub's API has it: it starts on line two and ends on line one. -/
def backwardsJson : Json :=
  .obj [("id", .num 9), ("path", .str "x"), ("body", .str "b"), ("user", .obj [("login", .str "a")]),
    ("commit_id", .str "c3"), ("side", .str "RIGHT"), ("line", .num 1), ("start_line", .num 2),
    ("subject_type", .str "line")]

def backwards : ThreadComment where
  id := 9
  rootId := 9
  path := "x"
  side := some .right
  line := some 1
  startLine := some 2
  fileLevel := some false
  body := "b"
  author := "a"
  commitId := "c3"
  createdAt := none

def oneLine : Bytes := asBytes "diff --git a/x b/x\n--- a/x\n+++ b/x\n@@ -1 +1 @@\n-a\n+b\n"

def lineOf : ThreadLocation → Option SourcePoint
  | .line p => some p
  | _ => none

theorem lineOf_eq_some {l : ThreadLocation} {p : SourcePoint} (h : lineOf l = some p) :
    l = .line p := by
  cases l with
  | line q =>
    cases h
    rfl
  | file q | outdated => cases h

theorem oneLine_parsed : ∃ r : PatchReport,
    parsePatch Sha256.sha256 oneLine .default = .ok r ∧ ∃ p,
      threadLocation (snapshotOf r [backwards]) backwards = some (.line p) ∧
        threadRootsAt (snapshotOf r [backwards]) p = some [] := by
  have hchecks : (parsePatch Sha256.sha256 oneLine .default).map (fun r =>
      ((threadLocation (snapshotOf r [backwards]) backwards).bind lineOf).bind fun p =>
        threadRootsAt (snapshotOf r [backwards]) p) = .ok (some []) := by
    decide +kernel
  obtain ⟨r, hparsed, hr⟩ := ok_of_map hchecks
  obtain ⟨p, hline, hroots⟩ := Option.bind_eq_some_iff.mp hr
  obtain ⟨l, hl, hp⟩ := Option.bind_eq_some_iff.mp hline
  exact ⟨r, hparsed, p, lineOf_eq_some hp ▸ hl, hroots⟩

/-- It is placed on its line, where its thread is not shown. -/
theorem backwards_hidden : ∃ s : Snapshot,
    parsePatch Sha256.sha256 oneLine .default = .ok s.patch ∧
      Github.thread backwardsJson = .ok backwards ∧ backwards ∈ s.comments ∧ ¬ Agrees s backwards := by
  obtain ⟨r, hparsed, p, hloc, hroots⟩ := oneLine_parsed
  refine ⟨snapshotOf r [backwards], hparsed, by rfl, List.mem_singleton_self _, fun h => ?_⟩
  obtain ⟨roots, hroots', hmem⟩ := h.line p hloc
  obtain rfl := Option.some.inj (hroots.symm.trans hroots')
  cases hmem

theorem backwards_agrees_iff : ∃ s : Snapshot,
    parsePatch Sha256.sha256 oneLine .default = .ok s.patch ∧ backwards ∈ s.comments ∧
      (Agrees s backwards ↔ Consistent s backwards) := by
  obtain ⟨r, hparsed, -⟩ := oneLine_parsed
  exact ⟨snapshotOf r [backwards], hparsed, List.mem_singleton_self _,
    @threadRoots_agree_iff (snapshotOf r [backwards]) backwards _ _ _ hparsed
      (List.mem_singleton_self _)⟩

end Threads
end Proof
end Diffz
