import Diffz.Proof.Patch.Cuts
import Diffz.Proof.Patch.Written

/-!
# Patches rebuilt from a list of files

A provider's list says of each changed file what it is called, what happened to it and, mostly, the
text of its hunks. The patch rebuilt from the list has a section for each (`Entry.toWritten`), and
the parser is to read it as the same file. A section is refused when nothing in it names the file
beyond doubt, and one refused section is the end of the patch; `Entry.Readable` is when that does
not happen.
-/

set_option autoImplicit false

namespace Diffz
namespace Proof
namespace Rebuilt

open Diffz.Proof.Patch
open Diffz.Github (plainByte quoteByte quotePath)

/-! ## Entries -/

inductive Status
  | added
  | removed
  | modified
  | renamed (prev : RepoPath)
  | copied (prev : RepoPath)
deriving DecidableEq

namespace Status

def kind : Status → ChangeKind
  | added => .added
  | removed => .deleted
  | modified => .modified
  | renamed _ => .renamed
  | copied _ => .copied

/-- GitHub's word. -/
def word : Status → String
  | added => "added"
  | removed => "removed"
  | modified => "modified"
  | renamed _ => "renamed"
  | copied _ => "copied"

/-- GitLab's `new_file`, `deleted_file` and `renamed_file`; it has no record of a copy. -/
def flags : Status → Option (Bool × Bool × Bool)
  | added => some (true, false, false)
  | removed => some (false, true, false)
  | modified => some (false, false, false)
  | renamed _ => some (false, false, true)
  | copied _ => none

/-- Where the file came from, when it was somewhere else. -/
def moved : Status → Option RepoPath
  | renamed prev | copied prev => some prev
  | _ => none

end Status

/-- What there is to see of a change. -/
inductive Content
  | hunks (texts : List HunkText)
  /-- changed lines that the provider left out -/
  | omitted
  /-- no changed line -/
  | nothing
deriving DecidableEq

/-- A changed file. -/
structure Entry where
  name : RepoPath
  status : Status
  content : Content
deriving DecidableEq

namespace Entry

def prev (e : Entry) : RepoPath := e.status.moved.getD e.name

def texts (e : Entry) : List HunkText :=
  match e.content with
  | .hunks texts => texts
  | _ => []

def oldPath (e : Entry) : Option RepoPath := if e.status = .added then none else some e.prev

def newPath (e : Entry) : Option RepoPath := if e.status = .removed then none else some e.name

/-- The file is the entry's. -/
structure ReadAs (e : Entry) (f : FileChange) : Prop where
  path : f.path = some e.name
  oldPath : f.oldPath = e.oldPath
  kind : f.kind = e.status.kind
  hunks : f.hunks = e.texts.map (·.hunk)

/-- A moved file has another name than before, and hunks are hunks of a patch. -/
structure Fine (e : Entry) : Prop where
  moved : ∀ p, e.status.moved = some p → p ≠ e.name
  some : e.content ≠ .hunks []
  inv : HunksInv (e.texts.map (·.hunk))
  texts : ∀ t ∈ e.texts, t.Fine

/-- When the section of an entry is read. A moved file's paths are on lines of their own, but its
`diff --git` line has to pass; a file with nothing to see has no other line than that. -/
def Readable (e : Entry) : Prop :=
  match e.status.moved with
  | some p => p.bytes.all plainByte → ¬e.name.bytes.all plainByte → cutsWell p e.name
  | none => e.content = .nothing → e.name.bytes.all plainByte → ¬hasSideMark e.name.bytes

end Entry

/-! ## The section of an entry -/

def modeLines (status : Status) (a b : String) : List HeadLine :=
  match status with
  | .added => [.newFileMode b]
  | .removed => [.deletedFileMode a]
  | _ => if a = b then [] else [.oldMode a, .newMode b]

def moveLines (e : Entry) : List HeadLine :=
  match e.status with
  | .renamed p => [.renameFrom p, .renameTo e.name]
  | .copied p => [.copyFrom p, .copyTo e.name]
  | _ => []

def contentLines (e : Entry) (note : String) : List HeadLine :=
  match e.content with
  | .hunks _ => [.oldMarker e.oldPath, .newMarker e.newPath]
  | .omitted => [.note note, .oldMarker e.oldPath, .newMarker e.newPath]
  | .nothing => []

/-- The section, with the modes before and after and the remark on a text left out. -/
def Entry.toWritten (e : Entry) (a b note : String) : Written where
  prev := e.prev
  name := e.name
  heads := modeLines e.status a b ++ (moveLines e ++ contentLines e note)
  texts := e.texts

/-- A section either provider may write for an entry. -/
inductive Sections (e : Entry) : Written → Prop
  | mk {a b note : String} (ha : '\n' ∉ a.toList) (hb : '\n' ∉ b.toList)
      (hnote : (HeadLine.note note).Fine) : Sections e (e.toWritten a b note)

theorem Sections.parts {e : Entry} {w : Written} (h : Sections e w) :
    w.prev = e.prev ∧ w.name = e.name ∧ w.texts = e.texts := by
  obtain ⟨-, -, -⟩ := h
  exact ⟨rfl, rfl, rfl⟩

theorem Sections.fine {e : Entry} {w : Written} (h : Sections e w) (he : e.Fine) : w.Fine := by
  obtain ⟨ha, hb, hnote⟩ := h
  refine ⟨?_, he.inv, he.texts⟩
  intro l hl
  simp only [Entry.toWritten, List.mem_append] at hl
  rcases hl with hl | hl | hl
  · unfold modeLines at hl
    split at hl
    · rw [List.mem_singleton.mp hl]
      exact hb
    · rw [List.mem_singleton.mp hl]
      exact ha
    · split at hl
      · cases hl
      · simp only [List.mem_cons, List.not_mem_nil, or_false] at hl
        rcases hl with rfl | rfl
        · exact ha
        · exact hb
  · unfold moveLines at hl
    split at hl
    · simp only [List.mem_cons, List.not_mem_nil, or_false] at hl
      rcases hl with rfl | rfl <;> trivial
    · simp only [List.mem_cons, List.not_mem_nil, or_false] at hl
      rcases hl with rfl | rfl <;> trivial
    · cases hl
  · unfold contentLines at hl
    split at hl
    · simp only [List.mem_cons, List.not_mem_nil, or_false] at hl
      rcases hl with rfl | rfl <;> trivial
    · simp only [List.mem_cons, List.not_mem_nil, or_false] at hl
      rcases hl with rfl | rfl | rfl
      · exact hnote
      · trivial
      · trivial
    · cases hl

/-! ## What is read -/

/-- The paths as they stand after the header, from what the `diff --git` line names. -/
def Entry.pathsRead (e : Entry) (old new : Option RepoPath) : Option RepoPath × Option RepoPath :=
  match e.content with
  | .nothing =>
    match e.status with
    | .added => (none, new)
    | .removed => (old, none)
    | .modified => (old, new)
    | .renamed p | .copied p => (some p, some e.name)
  | _ => (e.oldPath, e.newPath)

/-- The `diff --git` line has a say in the paths alone. -/
theorem read_toWritten (e : Entry) (a b note : String) (old new : Option RepoPath) :
    (e.toWritten a b note).read old new = { (e.toWritten a b note).read none none with
      oldPath := (e.pathsRead old new).1, newPath := (e.pathsRead old new).2 } := by
  obtain ⟨name, status, content⟩ := e
  by_cases hab : a = b
  all_goals
    unfold Entry.toWritten
    cases status <;> cases content <;> simp only [modeLines, hab, if_true, if_false] <;> rfl

theorem kind_toWritten (e : Entry) (a b note : String) :
    ((e.toWritten a b note).read none none).kind = e.status.kind := by
  obtain ⟨name, status, content⟩ := e
  by_cases hab : a = b
  all_goals
    unfold Entry.toWritten
    cases status <;> cases content <;> simp only [modeLines, hab, if_true, if_false] <;> rfl

theorem pathsRead_named (e : Entry) :
    e.pathsRead (some e.prev) (some e.name) = (e.oldPath, e.newPath) := by
  obtain ⟨name, status, content⟩ := e
  cases status <;> cases content <;> rfl

/-- What the presence check lets through, with the fix-ups made. -/
def finished (sha256 : Bytes → Bytes) (f : FileChange) : FileChange :=
  let f := if f.oldMode = some "160000" ∨ f.newMode = some "160000" then
    { f with content := .submodule } else f
  let f := if f.kind = .added then { f with oldPath := none } else f
  let f := if f.kind = .deleted then { f with newPath := none } else f
  let a := (f.oldPath.map (·.bytes)).getD []
  let b := (f.newPath.map (·.bytes)).getD []
  { f with id := ⟨digest sha256 [asBytes "file-v1", a, b]⟩ }

theorem finishFile_eq {sha256 : Bytes → Bytes} {f : FileChange}
    (h : ¬(f.oldPath = none ∧ f.newPath = none)) (i : Nat) :
    finishFile sha256 f i = .ok (finished sha256 f) := if_neg h

theorem finished_spec (sha256 : Bytes → Bytes) (f : FileChange) :
    (finished sha256 f).kind = f.kind ∧ (finished sha256 f).hunks = f.hunks ∧
      (finished sha256 f).oldPath = (if f.kind = .added then none else f.oldPath) ∧
      (finished sha256 f).newPath = (if f.kind = .deleted then none else f.newPath) ∧
      (finished sha256 f).id = ⟨digest sha256 [asBytes "file-v1",
        ((finished sha256 f).oldPath.map (·.bytes)).getD [],
        ((finished sha256 f).newPath.map (·.bytes)).getD []]⟩ := by
  obtain ⟨_, old, new, kind, _, oldMode, newMode, _, _, _, _⟩ := f
  unfold finished
  by_cases hmode : oldMode = some "160000" ∨ newMode = some "160000"
  all_goals
    cases kind <;> simp [hmode]

/-- The file of a section whose paths are known. -/
def fileOf (sha256 : Bytes → Bytes) (w : Written) : FileChange :=
  finished sha256 (w.read (some w.prev) (some w.name))

/-- The bytes hashed for the identity of an entry's file. -/
def Entry.key (e : Entry) : Bytes :=
  framed [asBytes "file-v1", (e.oldPath.map (·.bytes)).getD [], (e.newPath.map (·.bytes)).getD []]

section

variable {sha256 : Bytes → Bytes} {e : Entry} {w : Written}

theorem Sections.readAs (h : Sections e w) :
    e.ReadAs (fileOf sha256 w) ∧ (fileOf sha256 w).id = ⟨hex (sha256 e.key)⟩ := by
  obtain ⟨-, -, -⟩ := h
  rename_i a b note
  have hread := read_toWritten e a b note (some e.prev) (some e.name)
  have hkind := kind_toWritten e a b note
  have hhunks : ((e.toWritten a b note).read none none).hunks = e.texts.map (·.hunk) := rfl
  rw [pathsRead_named] at hread
  unfold fileOf
  rw [show (e.toWritten a b note).prev = e.prev from rfl,
    show (e.toWritten a b note).name = e.name from rfl, hread]
  generalize (e.toWritten a b note).read none none = f at hkind hhunks
  obtain ⟨hk, hh, ho, hn, hid⟩ :=
    finished_spec sha256 { f with oldPath := e.oldPath, newPath := e.newPath }
  have hold : (if f.kind = .added then none else e.oldPath) = e.oldPath := by
    rw [hkind]
    obtain ⟨name, status, content⟩ := e
    cases status <;> rfl
  have hnew : (if f.kind = .deleted then none else e.newPath) = e.newPath := by
    rw [hkind]
    obtain ⟨name, status, content⟩ := e
    cases status <;> rfl
  rw [hold] at ho
  rw [hnew] at hn
  rw [ho, hn] at hid
  refine ⟨⟨?_, ho, hk.trans hkind, hh.trans hhunks⟩, hid⟩
  rw [FileChange.path, ho, hn]
  obtain ⟨name, status, content⟩ := e
  cases status <;> rfl

/-! ## Read or refused -/

theorem prev_eq_of_moved {p : RepoPath} (h : e.status.moved = some p) : e.prev = p := by
  rw [Entry.prev, h, Option.getD_some]

theorem prev_eq_name (h : e.status.moved = none) : e.prev = e.name := by
  rw [Entry.prev, h, Option.getD_none]

/-- Where the paths are on other lines, the `diff --git` line need not name them. -/
theorem pathsRead_settled (h : e.content ≠ .nothing ∨ e.status.moved ≠ none)
    (old new : Option RepoPath) : e.pathsRead old new = (e.oldPath, e.newPath) := by
  obtain ⟨name, status, content⟩ := e
  cases content with
  | hunks texts => rfl
  | omitted => rfl
  | nothing =>
    have hmoved := h.resolve_left (by simp)
    cases status with
    | renamed p => rfl
    | copied p => rfl
    | _ => exact absurd rfl hmoved

/-- A path before itself is never an error, and is told apart unless it is plain and has the mark
in it. -/
theorem headerPaths_same (p : RepoPath) (i : Nat) :
    ∃ old new, headerPaths (headText p p) i = .ok (old, new) ∧
      ((p.bytes.all plainByte → ¬hasSideMark p.bytes) → old = some p ∧ new = some p) ∧
      (p.bytes.all plainByte → hasSideMark p.bytes → old = none ∧ new = none) := by
  by_cases hp : p.bytes.all plainByte
  · have hpaths := headerPaths_plain hp hp i
    rw [Bool.or_self] at hpaths
    cases hm : hasSideMark p.bytes with
    | true =>
      rw [hm, if_pos rfl] at hpaths
      exact ⟨none, none, hpaths, fun h => absurd rfl (h hp), fun _ _ => ⟨rfl, rfl⟩⟩
    | false =>
      rw [hm, if_neg (by simp)] at hpaths
      exact ⟨some p, some p, hpaths, fun _ => ⟨rfl, rfl⟩, fun _ h => nomatch h⟩
  · exact ⟨some p, some p, headerPaths_quoted hp i, fun _ => ⟨rfl, rfl⟩, fun h => absurd h hp⟩

/-- The `diff --git` line of a readable entry passes, and no path is left open. -/
theorem headerPaths_readable (hr : e.Readable) (i : Nat) :
    ∃ old new, headerPaths (headText e.prev e.name) i = .ok (old, new) ∧
      e.pathsRead old new = (e.oldPath, e.newPath) := by
  unfold Entry.Readable at hr
  cases hmoved : e.status.moved with
  | some p =>
    rw [hmoved] at hr
    have hset := pathsRead_settled (.inr (by simp [hmoved]) : e.content ≠ .nothing ∨ _)
    have hok : ∃ r, headerPaths (headText e.prev e.name) i = .ok r := by
      rw [prev_eq_of_moved hmoved]
      by_cases hp : p.bytes.all plainByte
      · by_cases hn : e.name.bytes.all plainByte
        · rw [headerPaths_plain hp hn]
          split <;> exact ⟨_, rfl⟩
        · exact (headerPaths_mixed hp hn i).1 (hr hp hn)
      · exact ⟨_, headerPaths_quoted hp i⟩
    obtain ⟨⟨old, new⟩, hpaths⟩ := hok
    exact ⟨old, new, hpaths, hset old new⟩
  | none =>
    rw [hmoved] at hr
    rw [prev_eq_name hmoved]
    obtain ⟨old, new, hpaths, hnamed, -⟩ := headerPaths_same e.name i
    refine ⟨old, new, hpaths, ?_⟩
    by_cases hc : e.content = .nothing
    · obtain ⟨rfl, rfl⟩ := hnamed (hr hc)
      have hall := pathsRead_named e
      rwa [prev_eq_name hmoved] at hall
    · exact pathsRead_settled (.inl hc) old new

theorem Sections.parses (h : Sections e w) (hr : e.Readable) : Parses sha256 w (fileOf sha256 w) := by
  intro i
  obtain ⟨-, -, -⟩ := h
  rename_i a b note
  obtain ⟨old, new, hpaths, hread⟩ := headerPaths_readable hr i
  refine ⟨old, new, hpaths, fun j => ?_⟩
  have hsame : (e.toWritten a b note).read old new =
      (e.toWritten a b note).read (some e.prev) (some e.name) := by
    rw [read_toWritten e a b note old new, hread, read_toWritten e a b note (some e.prev),
      pathsRead_named]
  have hsome : ¬(((e.toWritten a b note).read (some e.prev) (some e.name)).oldPath = none ∧
      ((e.toWritten a b note).read (some e.prev) (some e.name)).newPath = none) := by
    rw [read_toWritten, pathsRead_named]
    obtain ⟨name, status, content⟩ := e
    cases status <;> simp [Entry.oldPath, Entry.newPath]
  rw [hsame, finishFile_eq hsome j]
  rfl

theorem Sections.refused (h : Sections e w) (hr : ¬e.Readable) : Refused w := by
  intro i
  obtain ⟨-, -, -⟩ := h
  rename_i a b note
  show (∃ er, headerPaths (headText e.prev e.name) i = .error er) ∨
    ∃ old new, headerPaths (headText e.prev e.name) i = .ok (old, new) ∧
      ((e.toWritten a b note).read old new).oldPath = none ∧
      ((e.toWritten a b note).read old new).newPath = none
  unfold Entry.Readable at hr
  cases hmoved : e.status.moved with
  | some p =>
    rw [hmoved] at hr
    simp only [not_forall, Bool.not_eq_true] at hr
    obtain ⟨hp, hn, hcut⟩ := hr
    rw [prev_eq_of_moved hmoved]
    exact .inl ((headerPaths_mixed hp (by simpa using hn) i).2 (by simpa using hcut))
  | none =>
    rw [hmoved] at hr
    simp only [not_forall, not_not] at hr
    obtain ⟨hc, hp, hmark⟩ := hr
    obtain ⟨old, new, hpaths, -, hnone⟩ := headerPaths_same e.name i
    obtain ⟨rfl, rfl⟩ := hnone hp hmark
    refine .inr ⟨none, none, ?_, ?_⟩
    · rw [prev_eq_name hmoved]
      exact hpaths
    · rw [read_toWritten]
      obtain ⟨name, status, content⟩ := e
      cases hc
      cases status with
      | renamed p => cases hmoved
      | copied p => cases hmoved
      | _ => exact ⟨rfl, rfl⟩

end

/-! ## Identities -/

theorem length_le_quotePath (side p : Bytes) : p.length ≤ (quotePath side p).length := by
  have hquoted : p.length ≤ (p.flatMap quoteByte).length := by
    induction p with
    | nil => exact Nat.zero_le _
    | cons b p ih =>
      have hbyte : 0 < (quoteByte b).length := by
        unfold quoteByte
        split_ifs <;> simp
      rw [List.flatMap_cons, List.length_append, List.length_cons]
      omega
  unfold quotePath
  split
  · rw [List.length_append]
    omega
  · simp only [List.length_cons, List.length_append]
    omega

/-- The paths of a section are in the patch. -/
theorem length_le_written {ws : List Written} {w : Written} (h : w ∈ ws) :
    w.prev.bytes.length ≤ (written ws).length ∧ w.name.bytes.length ≤ (written ws).length := by
  have hline : diffGit ++ headText w.prev w.name ∈ writtenLines ws :=
    List.mem_flatMap.mpr ⟨w, h, List.mem_cons_self⟩
  have hsub : (diffGit ++ headText w.prev w.name).length ≤ (written ws).length := by
    obtain ⟨before, after, hcut⟩ := List.append_of_mem hline
    rw [written, hcut, List.flatMap_append, List.flatMap_cons]
    simp only [List.length_append]
    omega
  have hprev := length_le_quotePath (asBytes "a/") w.prev.bytes
  have hname := length_le_quotePath (asBytes "b/") w.name.bytes
  simp only [headText, List.length_append] at hsub
  omega

theorem bytes_ne_nil (p : RepoPath) : p.bytes ≠ [] := by
  intro h
  have hv := p.valid
  rw [h] at hv
  cases hv

/-- Files with the same bytes to hash have the same name. -/
theorem key_injective {e e' : Entry}
    (he : e.prev.bytes.length < 2 ^ 64 ∧ e.name.bytes.length < 2 ^ 64)
    (he' : e'.prev.bytes.length < 2 ^ 64 ∧ e'.name.bytes.length < 2 ^ 64) (h : e.key = e'.key) :
    e.name = e'.name := by
  have hfits : ∀ {e : Entry}, e.prev.bytes.length < 2 ^ 64 ∧ e.name.bytes.length < 2 ^ 64 →
      ((e.oldPath.map (·.bytes)).getD []).length < 2 ^ 64 ∧
      ((e.newPath.map (·.bytes)).getD []).length < 2 ^ 64 := by
    rintro e ⟨hp, hn⟩
    unfold Entry.oldPath Entry.newPath
    constructor
    · split
      · decide
      · exact hp
    · split
      · decide
      · exact hn
  obtain ⟨-, h⟩ := framed_cons_inj (by decide) (by decide) h
  obtain ⟨hold, h⟩ := framed_cons_inj (hfits he).1 (hfits he').1 h
  obtain ⟨hnew, -⟩ := framed_cons_inj (hfits he).2 (hfits he').2 h
  have hbytes : e.name.bytes = e'.name.bytes := by
    unfold Entry.newPath at hnew
    split at hnew
    · rename_i hrem
      split at hnew
      · rename_i hrem'
        -- Both are removed: the names are the old paths.
        simpa [Entry.oldPath, Entry.prev, Status.moved, hrem, hrem'] using hold
      · exact absurd hnew.symm (bytes_ne_nil e'.name)
    · split at hnew
      · exact absurd hnew (bytes_ne_nil e.name)
      · exact hnew
  obtain ⟨⟨n, hn⟩, _, _⟩ := e
  obtain ⟨⟨n', hn'⟩, _, _⟩ := e'
  cases hbytes
  rfl

/-! ## The patch -/

/-- The patch and what it is of stay within the limits, which are `usize`. -/
structure Within (limits : ParseLimits) (patch : Bytes) (es : List Entry) : Prop where
  size : limits.maxBytes < 2 ^ 64
  bytes : patch.length ≤ limits.maxBytes
  count : es.length ≤ limits.maxFiles
  rows : (es.flatMap fun e => e.texts.flatMap (·.hunk.rows)).length ≤ limits.maxRows
  lines : ∀ l ∈ splitLines patch, l.length ≤ limits.maxLineBytes

section

variable {sha256 : Bytes → Bytes} {limits : ParseLimits}

/-- **Sections are read as the entries they were written for, if all can be read.** -/
theorem parsePatch_sections {ps : List (Entry × Written)} (hs : ∀ p ∈ ps, Sections p.1 p.2)
    (he : ∀ p ∈ ps, p.1.Fine) (hnames : (ps.map (·.1.name)).Nodup)
    (hfit : Within limits (written (ps.map (·.2))) (ps.map (·.1)))
    (hc : CollisionFree sha256 {b | ∃ e ∈ ps.map (·.1), b = e.key}) :
    (∃ files, parsePatch sha256 (written (ps.map (·.2))) limits = .ok ⟨files⟩ ∧
      List.Forall₂ Entry.ReadAs (ps.map (·.1)) files) ↔ ∀ p ∈ ps, p.1.Readable := by
  have hw : ∀ w ∈ ps.map (·.2), w.Fine := by
    intro w hw
    obtain ⟨p, hp, rfl⟩ := List.mem_map.mp hw
    exact (hs p hp).fine (he p hp)
  have hrows : rowCount (ps.map (·.2)) =
      ((ps.map (·.1)).flatMap fun e => e.texts.flatMap (·.hunk.rows)).length := by
    rw [rowCount, List.flatMap_map, List.flatMap_map]
    congr 1
    refine List.flatMap_congr fun p hp => ?_
    rw [(hs p hp).parts.2.2]
  have hfit' : FitsWritten limits (ps.map (·.2)) := by
    refine ⟨hfit.bytes, ?_, hrows ▸ hfit.rows, ?_⟩
    · have hcount := hfit.count
      rwa [List.length_map] at hcount ⊢
    · have hlines := hfit.lines
      rwa [written, splitLines_flatMap_lf (lf_not_mem_writtenLines hw)] at hlines
  constructor
  · rintro ⟨files, hok, -⟩ p hp
    by_contra hr
    have hall : ∀ w ∈ ps.map (·.2), (∃ f, Parses sha256 w f) ∨ Refused w := by
      intro w hw
      obtain ⟨q, hq, rfl⟩ := List.mem_map.mp hw
      by_cases hqr : q.1.Readable
      · exact .inl ⟨_, (hs q hq).parses hqr⟩
      · exact .inr ((hs q hq).refused hqr)
    obtain ⟨e, herr⟩ := parsePatch_refused hw hfit' hall
      ⟨p.2, List.mem_map_of_mem hp, (hs p hp).refused hr⟩
    rw [herr] at hok
    cases hok
  · intro hr
    have hparse : ∀ w ∈ ps.map (·.2), Parses sha256 w (fileOf sha256 w) := by
      intro w hw
      obtain ⟨p, hp, rfl⟩ := List.mem_map.mp hw
      exact (hs p hp).parses (hr p hp)
    have hids : (seen ((ps.map (·.2)).map (fileOf sha256))).Nodup := by
      unfold seen
      rw [List.map_map, List.map_map]
      refine (List.nodup_map_iff_inj_on (hnames.of_map _)).mpr fun p hp q hq hid => ?_
      have hsize : ∀ p ∈ ps, p.1.prev.bytes.length < 2 ^ 64 ∧ p.1.name.bytes.length < 2 ^ 64 := by
        intro p hp
        have hlen := length_le_written (List.mem_map_of_mem (f := (·.2)) hp)
        have hlim := hfit.size
        have hbytes := hfit.bytes
        obtain ⟨hprev, hname, -⟩ := (hs p hp).parts
        rw [hprev, hname] at hlen
        omega
      have hpq : hex (sha256 p.1.key) = hex (sha256 q.1.key) := by
        have hid' : (fileOf sha256 p.2).id = (fileOf sha256 q.2).id := hid
        rw [(hs p hp).readAs.2, (hs q hq).readAs.2] at hid'
        exact congrArg FileId.val hid'
      have hkey := hc ⟨p.1, List.mem_map_of_mem hp, rfl⟩ ⟨q.1, List.mem_map_of_mem hq, rfl⟩
        (hex_injective hpq)
      exact List.inj_on_of_nodup_map hnames hp hq (key_injective (hsize p hp) (hsize q hq) hkey)
    refine ⟨_, parsePatch_parses hw hfit' hparse hids, ?_⟩
    rw [List.map_map, List.forall₂_map_left_iff, List.forall₂_map_right_iff, List.forall₂_same]
    exact fun p hp => (hs p hp).readAs.1

end

end Rebuilt
end Proof
end Diffz
