import Mathlib.Tactic.IntervalCases
import Diffz.Adapters.Gitlab
import Diffz.Proof.Patch.Rebuilt

/-!
# The two functions that rebuild a patch

`patch_from_files` writes from the objects of GitHub's file list, `patch_from_diffs` from the records
of GitLab's compare. Each object that describes an entry becomes one section of that entry, so what
the parser makes of the whole is the same for both (`parsePatch_sections`).
-/

set_option autoImplicit false

namespace Diffz
namespace Proof
namespace Rebuilt

open Diffz.Proof.Patch
open Diffz.Github (quotePath patchLine diffLine markerLines patchText patchFromFile patchFromFiles)
open Diffz.Gitlab (modeOf patchFromDiff patchFromDiffs)

/-! ## The text of hunks -/

def hunkBytes (texts : List HunkText) : Bytes :=
  (texts.flatMap HunkText.lines).flatMap (· ++ [10])

/-- The text of hunks; its last line feed may be missing. -/
def IsText (text : String) (texts : List HunkText) : Prop :=
  asBytes text = hunkBytes texts ∨ asBytes text ++ [10] = hunkBytes texts

theorem lines_ne_nil {t : HunkText} (ht : t.Fine) : ∀ l ∈ t.lines, l ≠ [] ∧ 10 ∉ l := by
  intro l hl
  rw [HunkText.lines, List.mem_cons] at hl
  rcases hl with rfl | hl
  · obtain ⟨tail, htail⟩ := ht.header.begins
    refine ⟨?_, ht.header.lf_not_mem⟩
    rw [htail]
    exact List.append_ne_nil_of_left_ne_nil (by decide) tail
  · obtain ⟨r, hr, hl⟩ := List.mem_flatMap.mp hl
    refine ⟨?_, lf_not_mem_rowLines (ht.rows r hr) hl⟩
    rw [rowLines, List.mem_cons] at hl
    rcases hl with rfl | hl
    · exact List.cons_ne_nil _ _
    · split at hl
      · rw [List.mem_singleton.mp hl]
        decide
      · cases hl

/-- The text ends in a line that is not empty. -/
theorem hunkBytes_eq {texts : List HunkText} (hne : texts ≠ []) (ht : ∀ t ∈ texts, t.Fine) :
    ∃ front l, hunkBytes texts = front ++ l ++ [10] ∧ l ≠ [] ∧ 10 ∉ l := by
  obtain ⟨t, rest, rfl⟩ := List.exists_cons_of_ne_nil hne
  have hsome : (t :: rest).flatMap HunkText.lines ≠ [] := by
    rw [List.flatMap_cons, HunkText.lines]
    exact List.cons_ne_nil _ _
  obtain ⟨u, hu, hlu⟩ := List.mem_flatMap.mp (List.getLast_mem hsome)
  refine ⟨((t :: rest).flatMap HunkText.lines).dropLast.flatMap (· ++ [10]), _, ?_,
    lines_ne_nil (ht u hu) _ hlu⟩
  rw [hunkBytes]
  conv_lhs => rw [← List.dropLast_concat_getLast hsome]
  rw [List.flatMap_append, List.flatMap_singleton, List.append_assoc]

/-- The last line feed is put back. -/
theorem patchText_eq {text : String} {texts : List HunkText} (h : IsText text texts)
    (hne : texts ≠ []) (ht : ∀ t ∈ texts, t.Fine) : patchText text = hunkBytes texts := by
  obtain ⟨front, l, hbytes, hl, hlf⟩ := hunkBytes_eq hne ht
  unfold patchText
  rcases h with h | h
  · rw [h, hbytes, if_pos List.getLast?_concat, List.append_nil]
  · rw [hbytes] at h ⊢
    have hcut := (List.append_inj' h rfl).1
    have hend : (front ++ l).getLast? ≠ some 10 := by
      rw [List.getLast?_append_of_ne_nil _ hl]
      intro hmem
      exact hlf (List.mem_of_getLast? hmem)
    rw [hcut, if_neg hend]

theorem isText_not_empty {text : String} {texts : List HunkText} (h : IsText text texts)
    (hne : texts ≠ []) (ht : ∀ t ∈ texts, t.Fine) : text.isEmpty = false := by
  obtain ⟨front, l, hbytes, hl, -⟩ := hunkBytes_eq hne ht
  by_contra hempty
  rw [Bool.not_eq_false, String.isEmpty_iff] at hempty
  have hlen := List.length_pos_iff.mpr hl
  have hnil : asBytes "" = [] := by decide
  rw [hempty, IsText, hnil, hbytes] at h
  rcases h with h | h
  · simpa using congrArg List.length h
  · have hcut := congrArg List.length h
    simp only [List.length_append, List.length_nil, List.length_singleton] at hcut
    omega

/-! ## Objects that describe an entry -/

/-- An object of GitHub's file list. -/
structure GithubFile (f : Json) (e : Entry) : Prop where
  name : (f.get "filename").asStr.map asBytes = some e.name.bytes
  prev : ((f.get "previous_filename").asStr.map asBytes).getD e.name.bytes = e.prev.bytes
  status : (f.get "status").asStr.getD "modified" = e.status.word
  content :
    match e.content with
    | .hunks texts => ∃ text, (f.get "patch").asStr = some text ∧ IsText text texts
    | .omitted => (f.get "patch").asStr = none ∧ 0 < (f.get "changes").asU64.getD 0
    | .nothing => (f.get "patch").asStr = none ∧ (f.get "changes").asU64.getD 0 = 0

/-- A record of GitLab's compare. -/
structure GitlabDiff (d : Json) (e : Entry) : Prop where
  prev : (d.get "old_path").asStr.map asBytes = some e.prev.bytes
  name : (d.get "new_path").asStr.map asBytes = some e.name.bytes
  status : e.status.flags = some ((d.get "new_file").isTrue, (d.get "deleted_file").isTrue,
    (d.get "renamed_file").isTrue)
  modes : '\n' ∉ (modeOf d "a_mode").toList ∧ '\n' ∉ (modeOf d "b_mode").toList
  content :
    match e.content with
    | .hunks texts => ∃ text, (d.get "diff").asStr = some text ∧ IsText text texts
    | .omitted => (d.get "diff").asStr.getD "" = "" ∧
        ((d.get "too_large").isTrue || (d.get "collapsed").isTrue) = true
    | .nothing => (d.get "diff").asStr.getD "" = "" ∧
        ((d.get "too_large").isTrue || (d.get "collapsed").isTrue) = false

/-! ## Remarks -/

theorem headerLine_digit (rest : Bytes) : ∀ d < 10,
    headerLine (UInt8.ofNat (48 + d) :: rest) = .other ∧
      diffGit.isPrefixOf (UInt8.ofNat (48 + d) :: rest) = false ∧
      hunkStart.isPrefixOf (UInt8.ofNat (48 + d) :: rest) = false ∧
      (asBytes "diff --cc ").isPrefixOf (UInt8.ofNat (48 + d) :: rest) = false ∧
      (asBytes "diff --combined ").isPrefixOf (UInt8.ofNat (48 + d) :: rest) = false ∧
      (asBytes "@@@ ").isPrefixOf (UInt8.ofNat (48 + d) :: rest) = false := by
  intro d hd
  interval_cases d <;> exact ⟨rfl, rfl, rfl, rfl, rfl, rfl⟩

theorem utf8EncodeChar_digit {c : Char} (h : c.isDigit = true) :
    ∃ d < 10, String.utf8EncodeChar c = [UInt8.ofNat (48 + d)] := by
  have hrange : 48 ≤ c.toNat ∧ c.toNat ≤ 57 := by
    simp only [Char.isDigit, Bool.and_eq_true, decide_eq_true_eq] at h
    exact ⟨UInt32.le_iff_toNat_le.mp h.1, UInt32.le_iff_toNat_le.mp h.2⟩
  obtain ⟨d, hd⟩ : ∃ d, c.toNat = 48 + d := Nat.exists_eq_add_of_le hrange.1
  have hlt : d < 10 := by omega
  have hc : c = Char.ofNat (48 + d) := by
    rw [← hd, Char.ofNat_toNat]
  refine ⟨d, hlt, ?_⟩
  rw [hc]
  interval_cases d <;> rfl

/-- A remark that begins with a number. -/
theorem fine_note_number (n : Nat) {s : String} (hs : '\n' ∉ s.toList) :
    (HeadLine.note (toString n ++ s)).Fine := by
  have hnum : (toString n).toList = Nat.toDigits 10 n := by
    simp [toString, Nat.repr]
  obtain ⟨c, cs, hcs⟩ := List.exists_cons_of_ne_nil (Nat.toDigits_ne_nil (n := n) (b := 10))
  have hdigit : c.isDigit = true :=
    List.all_eq_true.mp (digits_all_isDigit n) c (by rw [hcs]; exact List.mem_cons_self)
  obtain ⟨d, hd, henc⟩ := utf8EncodeChar_digit hdigit
  obtain ⟨rest, hrest⟩ : ∃ rest, asBytes (toString n ++ s) = UInt8.ofNat (48 + d) :: rest := by
    rw [asBytes_append, asBytes_eq_flatMap, hnum, hcs, List.flatMap_cons, henc]
    exact ⟨_, rfl⟩
  refine ⟨?_, ?_, ?_⟩
  · rw [String.toList_append, List.mem_append, not_or, hnum]
    exact ⟨toDigits_not_mem (by decide), hs⟩
  · intro h
    rw [h] at hrest
    cases hrest
  · rw [hrest]
    exact headerLine_digit rest d hd

/-- GitHub's remark on a text it left out. -/
theorem fine_note_github (n : Nat) :
    (HeadLine.note s!"{n}-line change; GitHub omitted its text").Fine :=
  fine_note_number n (by decide)

theorem fine_note_gitlab : (HeadLine.note "GitLab omitted its text").Fine :=
  ⟨by decide, by decide, rfl, rfl, rfl, rfl, rfl, rfl⟩

/-! ## Sections -/

/-- Header lines, each with its line feed. -/
def headBytes (ls : List HeadLine) : Bytes := ls.flatMap fun l => l.bytes ++ [10]

theorem headBytes_append (ls ks : List HeadLine) :
    headBytes (ls ++ ks) = headBytes ls ++ headBytes ks := List.flatMap_append

/-- The bytes of a section. -/
def sectionBytes (w : Written) : Bytes := w.lines.flatMap (· ++ [10])

theorem written_eq (ws : List Written) : written ws = ws.flatMap sectionBytes := by
  rw [written, writtenLines, List.flatMap_assoc]
  rfl

theorem sectionBytes_toWritten (e : Entry) (a b note : String) :
    sectionBytes (e.toWritten a b note) = diffLine e.prev.bytes e.name.bytes ++
      (headBytes (modeLines e.status a b) ++ (headBytes (moveLines e) ++
        (headBytes (contentLines e note) ++ hunkBytes e.texts))) := by
  have hhead : diffLine e.prev.bytes e.name.bytes = diffGit ++ headText e.prev e.name ++ [10] := by
    simp [diffLine, patchLine, headText]
  have hheads : ∀ ls : List HeadLine, (ls.map HeadLine.bytes).flatMap (· ++ [10]) = headBytes ls :=
    fun ls => List.flatMap_map ..
  rw [hhead, sectionBytes, Written.lines, List.flatMap_cons, List.flatMap_append, hheads]
  show _ ++ (headBytes (modeLines e.status a b ++ (moveLines e ++ contentLines e note)) ++
    hunkBytes e.texts) = _
  rw [headBytes_append, headBytes_append]
  simp only [List.append_assoc]
  rfl

/-- The marker lines of an entry. -/
theorem markerLines_eq (e : Entry) :
    markerLines (if e.status = .added then devNull else quotePath (asBytes "a/") e.prev.bytes)
      (if e.status = .removed then devNull else quotePath (asBytes "b/") e.name.bytes) =
      headBytes [.oldMarker e.oldPath, .newMarker e.newPath] := by
  have hold : markerToken (asBytes "a/") e.oldPath =
      if e.status = .added then devNull else quotePath (asBytes "a/") e.prev.bytes := by
    unfold Entry.oldPath
    split <;> rfl
  have hnew : markerToken (asBytes "b/") e.newPath =
      if e.status = .removed then devNull else quotePath (asBytes "b/") e.name.bytes := by
    unfold Entry.newPath
    split <;> rfl
  rw [← hold, ← hnew]
  simp [markerLines, patchLine, headBytes, HeadLine.bytes]

theorem patchLine_two (s t : Bytes) : patchLine [s, t] = s ++ t ++ [10] := by
  simp [patchLine]

/-- A string that is an entry's name, or its previous one. -/
theorem exists_string {o : Option String} {b : Bytes} (h : o.map asBytes = some b) :
    ∃ s, o = some s ∧ asBytes s = b := Option.map_eq_some_iff.mp h

theorem repoPath_eq {p q : RepoPath} (h : p.bytes = q.bytes) : p = q := by
  obtain ⟨p, hp⟩ := p
  obtain ⟨q, hq⟩ := q
  cases h
  rfl

/-- A moved file's strings differ. -/
theorem strings_ne {e : Entry} (he : e.Fine) {p : RepoPath} (hp : e.status.moved = some p)
    {prev name : String} (hprev : asBytes prev = e.prev.bytes) (hname : asBytes name = e.name.bytes) :
    prev ≠ name := by
  rintro rfl
  have hsame := repoPath_eq (hprev.symm.trans hname)
  rw [prev_eq_of_moved hp] at hsame
  exact he.moved p hp hsame

/-! ## GitHub -/

section Github

variable {f : Json} {e : Entry}

theorem github_status (he : e.Fine) {prev name : String} (hprev : asBytes prev = e.prev.bytes)
    (hname : asBytes name = e.name.bytes) :
    (if e.status.word = "added" then patchLine [asBytes "new file mode 100644"]
    else if e.status.word = "removed" then patchLine [asBytes "deleted file mode 100644"]
    else if (e.status.word = "renamed" ∨ e.status.word = "copied") ∧ prev ≠ name then
      let verb := if e.status.word = "copied" then "copy" else "rename"
      patchLine [asBytes verb, asBytes " from ", quotePath [] e.prev.bytes] ++
        patchLine [asBytes verb, asBytes " to ", quotePath [] e.name.bytes]
    else []) = headBytes (modeLines e.status "100644" "100644") ++ headBytes (moveLines e) := by
  have hne := fun p hp => strings_ne he (p := p) hp hprev hname
  obtain ⟨name', status, content⟩ := e
  cases status with
  | added => rfl
  | removed => rfl
  | modified => simp [Status.word, modeLines, moveLines, headBytes]
  | renamed p =>
    have hfrom : asBytes "rename from " = asBytes "rename" ++ asBytes " from " := by decide
    have hto : asBytes "rename to " = asBytes "rename" ++ asBytes " to " := by decide
    simp [Status.word, modeLines, moveLines, headBytes, HeadLine.bytes, patchLine, hne p rfl, hfrom,
      hto, Entry.prev, Status.moved]
  | copied p =>
    have hfrom : asBytes "copy from " = asBytes "copy" ++ asBytes " from " := by decide
    have hto : asBytes "copy to " = asBytes "copy" ++ asBytes " to " := by decide
    simp [Status.word, modeLines, moveLines, headBytes, HeadLine.bytes, patchLine, hne p rfl, hfrom,
      hto, Entry.prev, Status.moved]

theorem github_markers (e : Entry) :
    markerLines
      (if e.status.word = "added" then devNull else quotePath (asBytes "a/") e.prev.bytes)
      (if e.status.word = "removed" then devNull else quotePath (asBytes "b/") e.name.bytes) =
      headBytes [.oldMarker e.oldPath, .newMarker e.newPath] := by
  rw [← markerLines_eq]
  obtain ⟨name, status, content⟩ := e
  cases status <;> simp [Status.word]

theorem GithubFile.section (h : GithubFile f e) (he : e.Fine) :
    ∃ w, Sections e w ∧ patchFromFile f = sectionBytes w := by
  obtain ⟨name, hname, hnameb⟩ := exists_string h.name
  generalize hprevs : (f.get "previous_filename").asStr.getD name = prev
  have hprevb : asBytes prev = e.prev.bytes := by
    rw [← h.prev, ← hprevs, ← hnameb]
    cases (f.get "previous_filename").asStr <;> rfl
  have hstatus := github_status he hprevb hnameb
  have hmarkers := github_markers e
  have hcontent := h.content
  generalize hn : (f.get "changes").asU64.getD 0 = n at hcontent
  refine ⟨e.toWritten "100644" "100644" s!"{n}-line change; GitHub omitted its text",
    ⟨by decide, by decide, fine_note_github n⟩, ?_⟩
  have hsome := he.some
  rw [sectionBytes_toWritten]
  unfold patchFromFile
  rw [hname]
  dsimp only
  rw [hprevs, hnameb, hprevb, h.status, hstatus, hmarkers, hn]
  cases hc : e.content with
  | hunks texts =>
    rw [hc] at hcontent hsome
    obtain ⟨text, htext, his⟩ := hcontent
    have hlines : patchText text = hunkBytes e.texts := by
      have htexts : e.texts = texts := by rw [Entry.texts, hc]
      rw [htexts]
      exact patchText_eq his (by simpa using hsome) (htexts ▸ he.texts)
    rw [htext]
    simp [contentLines, hc, hlines, headBytes]
  | omitted =>
    rw [hc] at hcontent
    simp [contentLines, hc, hcontent.1, hcontent.2, headBytes, HeadLine.bytes, patchLine, Entry.texts, hunkBytes]
  | nothing =>
    rw [hc] at hcontent
    simp [contentLines, hc, hcontent.1, hcontent.2, headBytes, Entry.texts, hunkBytes]

end Github

/-! ## GitLab -/

section Gitlab

variable {d : Json} {e : Entry}

theorem gitlab_status (he : e.Fine) {old new a b : String} (hold : asBytes old = e.prev.bytes)
    (hnew : asBytes new = e.name.bytes) {isNew isDeleted isRenamed : Bool}
    (h : e.status.flags = some (isNew, isDeleted, isRenamed)) :
    (if isNew then patchLine [asBytes "new file mode ", asBytes b]
    else if isDeleted then patchLine [asBytes "deleted file mode ", asBytes a]
    else if a ≠ b then
      patchLine [asBytes "old mode ", asBytes a] ++ patchLine [asBytes "new mode ", asBytes b]
    else []) = headBytes (modeLines e.status a b) ∧
    (if isRenamed ∧ old ≠ new then
      patchLine [asBytes "rename from ", quotePath [] e.prev.bytes] ++
        patchLine [asBytes "rename to ", quotePath [] e.name.bytes]
    else []) = headBytes (moveLines e) := by
  have hne := fun p hp => strings_ne he (p := p) hp hold hnew
  obtain ⟨name, status, content⟩ := e
  have hmodes : ∀ {a b : String}, (if a ≠ b then
      patchLine [asBytes "old mode ", asBytes a] ++ patchLine [asBytes "new mode ", asBytes b]
      else []) = headBytes (if a = b then [] else [.oldMode a, .newMode b]) := by
    intro a b
    by_cases hab : a = b
    · simp [hab, headBytes]
    · simp [hab, headBytes, HeadLine.bytes, patchLine]
  cases status with
  | copied p => cases h
  | renamed p =>
    cases h
    refine ⟨hmodes, ?_⟩
    simp [moveLines, headBytes, HeadLine.bytes, patchLine, hne p rfl, Entry.prev, Status.moved]
  | modified =>
    cases h
    exact ⟨hmodes, by simp [moveLines, headBytes]⟩
  | added =>
    cases h
    exact ⟨by simp [modeLines, headBytes, HeadLine.bytes, patchLine], by simp [moveLines, headBytes]⟩
  | removed =>
    cases h
    exact ⟨by simp [modeLines, headBytes, HeadLine.bytes, patchLine], by simp [moveLines, headBytes]⟩

theorem gitlab_markers {isNew isDeleted isRenamed : Bool}
    (h : e.status.flags = some (isNew, isDeleted, isRenamed)) :
    markerLines (if isNew then devNull else quotePath (asBytes "a/") e.prev.bytes)
      (if isDeleted then devNull else quotePath (asBytes "b/") e.name.bytes) =
      headBytes [.oldMarker e.oldPath, .newMarker e.newPath] := by
  rw [← markerLines_eq]
  obtain ⟨name, status, content⟩ := e
  cases status <;> cases h <;> simp

theorem GitlabDiff.section (h : GitlabDiff d e) (he : e.Fine) :
    ∃ w, Sections e w ∧ patchFromDiff d = sectionBytes w := by
  obtain ⟨old, hold, holdb⟩ := exists_string h.prev
  obtain ⟨new, hnew, hnewb⟩ := exists_string h.name
  refine ⟨e.toWritten (modeOf d "a_mode") (modeOf d "b_mode") "GitLab omitted its text",
    ⟨h.modes.1, h.modes.2, fine_note_gitlab⟩, ?_⟩
  obtain ⟨hmode, hmove⟩ := gitlab_status (a := modeOf d "a_mode") (b := modeOf d "b_mode") he holdb
    hnewb h.status
  have hmarkers := gitlab_markers h.status
  have hcontent := h.content
  have hsome := he.some
  rw [sectionBytes_toWritten]
  unfold patchFromDiff
  rw [hold, hnew]
  dsimp only
  rw [holdb, hnewb, hmode, hmove, hmarkers]
  cases hc : e.content with
  | hunks texts =>
    rw [hc] at hcontent hsome
    obtain ⟨text, htext, his⟩ := hcontent
    have htexts : e.texts = texts := by rw [Entry.texts, hc]
    have hne : texts ≠ [] := by simpa using hsome
    have hfine : ∀ t ∈ texts, t.Fine := htexts ▸ he.texts
    rw [htext]
    simp [contentLines, hc, htexts, patchText_eq his hne hfine, headBytes,
      isText_not_empty his hne hfine]
  | omitted =>
    rw [hc] at hcontent
    simp [contentLines, hc, hcontent.1, hcontent.2, headBytes, HeadLine.bytes, patchLine, Entry.texts, hunkBytes]
  | nothing =>
    rw [hc] at hcontent
    simp [contentLines, hc, hcontent.1, hcontent.2, headBytes, Entry.texts, hunkBytes]

end Gitlab

/-! ## Whole patches -/

/-- Each object becomes a section of the entry it describes. -/
def WritesSections (Describes : Json → Entry → Prop) (patchOf : Json → Bytes) : Prop :=
  ∀ j e, Describes j e → e.Fine → ∃ w, Sections e w ∧ patchOf j = sectionBytes w

theorem sections_of_forall₂ {Describes : Json → Entry → Prop} {patchOf : Json → Bytes}
    (hone : WritesSections Describes patchOf) {js : List Json} {es : List Entry} (h : List.Forall₂ Describes js es)
    (he : ∀ e ∈ es, e.Fine) :
    ∃ ps : List (Entry × Written), ps.map (·.1) = es ∧ (∀ p ∈ ps, Sections p.1 p.2) ∧
      js.flatMap patchOf = written (ps.map (·.2)) := by
  induction h with
  | nil => exact ⟨[], rfl, by simp, rfl⟩
  | @cons j e js es hj _ ih =>
    obtain ⟨ps, hes, hs, hpatch⟩ := ih fun e he' => he e (List.mem_cons_of_mem _ he')
    obtain ⟨w, hw, hbytes⟩ := hone j e hj (he e List.mem_cons_self)
    refine ⟨(e, w) :: ps, by rw [List.map_cons, hes], ?_, ?_⟩
    · intro p hp
      rcases List.mem_cons.mp hp with rfl | hp
      · exact hw
      · exact hs p hp
    · rw [List.flatMap_cons, hpatch, hbytes, written_eq, written_eq, List.map_cons, List.flatMap_cons]

section

variable {sha256 : Bytes → Bytes} {limits : ParseLimits} {es : List Entry}

/-- What parsing gives for the entries: one file for each, in order. -/
def ParsesAs (sha256 : Bytes → Bytes) (limits : ParseLimits) (patch : Bytes) (es : List Entry) :
    Prop :=
  ∃ files, parsePatch sha256 patch limits = .ok ⟨files⟩ ∧ List.Forall₂ Entry.ReadAs es files

theorem parsesAs_iff {Describes : Json → Entry → Prop} {patchOf : Json → Bytes}
    (hone : WritesSections Describes patchOf) {js : List Json} (h : List.Forall₂ Describes js es)
    (he : ∀ e ∈ es, e.Fine) (hnames : (es.map (·.name)).Nodup)
    (hfit : Within limits (js.flatMap patchOf) es)
    (hc : CollisionFree sha256 {b | ∃ e ∈ es, b = e.key}) :
    ParsesAs sha256 limits (js.flatMap patchOf) es ↔ ∀ e ∈ es, e.Readable := by
  obtain ⟨ps, rfl, hs, hpatch⟩ := sections_of_forall₂ hone h he
  rw [hpatch] at hfit ⊢
  rw [List.forall_mem_map] at he ⊢
  rw [List.map_map] at hnames
  exact parsePatch_sections hs he hnames hfit hc

/-- **When a rebuilt patch parses back.** The parser answers with the files of the list, in order,
if and only if every entry is readable: for GitHub's file list and for GitLab's compare. -/
theorem rebuilt_patch_parses_iff (he : ∀ e ∈ es, e.Fine) (hnames : (es.map (·.name)).Nodup)
    (hc : CollisionFree sha256 {b | ∃ e ∈ es, b = e.key}) :
    (∀ files, List.Forall₂ GithubFile files es → Within limits (patchFromFiles files) es →
      (ParsesAs sha256 limits (patchFromFiles files) es ↔ ∀ e ∈ es, e.Readable)) ∧
    (∀ diffs, List.Forall₂ GitlabDiff diffs es → Within limits (patchFromDiffs diffs) es →
      (ParsesAs sha256 limits (patchFromDiffs diffs) es ↔ ∀ e ∈ es, e.Readable)) :=
  ⟨fun _ h hfit => parsesAs_iff (fun _ _ hf he => hf.section he) h he hnames hfit hc,
    fun _ h hfit => parsesAs_iff (fun _ _ hd he => hd.section he) h he hnames hfit hc⟩

end

/-- A file moved to a name that is quoted, with a hunk. -/
def movedEntry : Entry where
  name := ⟨asBytes "docs/na\"ive.md", by decide⟩
  status := .renamed ⟨asBytes "docs/old.md", by decide⟩
  content := .hunks (endingsFile.hunks.map asWritten)

theorem markedName_valid : validPath (asBytes "x b/y") = true := by decide

/-- A file with the mark in its name, whose text was left out. -/
def omittedEntry : Entry where
  name := ⟨asBytes "x b/y", markedName_valid⟩
  status := .modified
  content := .omitted

def movedText : String :=
  "@@ -1,3 +1,3 @@ fn main()\n diff --git a/x b/x\r\n-- \n-@@ old\n" ++
    "\\ No newline at end of file\n+\\ No newline at end of file\n+é\r\n" ++
    "\\ No newline at end of file"

def movedFile : Json :=
  .obj [("filename", .str "docs/na\"ive.md"), ("previous_filename", .str "docs/old.md"),
    ("status", .str "renamed"), ("changes", .num 4), ("patch", .str movedText)]

def omittedFile : Json :=
  .obj [("filename", .str "x b/y"), ("status", .str "modified"), ("changes", .num 4035)]

theorem movedEntry_fine : movedEntry.Fine := by
  refine ⟨?_, by decide, endingsFile_plain.inv, ?_⟩
  · intro p hp
    cases hp
    decide
  · intro t ht
    obtain ⟨h, hh, rfl⟩ := List.mem_map.mp ht
    exact (endingsFile_plain.hunks h hh).fine

theorem omittedEntry_fine : omittedEntry.Fine :=
  ⟨nofun, by decide, .nil, by simp [Entry.texts, omittedEntry]⟩

/-- The two files are read back. -/
theorem movedFile_parses :
    ParsesAs Sha256.sha256 .default (patchFromFiles [movedFile, omittedFile])
      [movedEntry, omittedEntry] := by
  have hne : Sha256.sha256 movedEntry.key ≠ Sha256.sha256 omittedEntry.key := by decide +kernel
  have hiff := @rebuilt_patch_parses_iff Sha256.sha256 .default [movedEntry, omittedEntry] ?_
    (by decide) ?_
  · refine (hiff.1 [movedFile, omittedFile] ?_ ?_).mpr ?_
    · refine .cons ⟨by decide, by decide, by decide, movedText, rfl, .inr (by decide +kernel)⟩
        (.cons ⟨by decide, by decide, by decide, rfl, by decide⟩ .nil)
    · exact ⟨by decide, by decide +kernel, by decide, by decide, by decide +kernel⟩
    · intro e he
      simp only [List.mem_cons, List.not_mem_nil, or_false] at he
      rcases he with rfl | rfl
      · exact fun _ _ => by decide
      · intro h
        cases h
  · intro e he
    simp only [List.mem_cons, List.not_mem_nil, or_false] at he
    rcases he with rfl | rfl
    · exact movedEntry_fine
    · exact omittedEntry_fine
  · rintro a ⟨f, hf, rfl⟩ b ⟨g, hg, rfl⟩ hab
    simp only [List.mem_cons, List.not_mem_nil, or_false] at hf hg
    rcases hf with rfl | rfl <;> rcases hg with rfl | rfl
    · rfl
    · exact absurd hab hne
    · exact absurd hab.symm hne
    · rfl

/-- An empty file with the mark in its name. -/
def emptyEntry : Entry where
  name := ⟨asBytes "x b/y", markedName_valid⟩
  status := .added
  content := .nothing

def emptyFile : Json :=
  .obj [("filename", .str "x b/y"), ("status", .str "added"), ("changes", .num 0)]

def emptyDiff : Json :=
  .obj [("old_path", .str "x b/y"), ("new_path", .str "x b/y"), ("new_file", .bool true),
    ("diff", .str "")]

/-- The file is added with nothing in it, and the whole patch is refused. -/
theorem emptyFile_refused :
    emptyEntry.Fine ∧
    (GithubFile emptyFile emptyEntry ∧ Within .default (patchFromFiles [emptyFile]) [emptyEntry] ∧
      parsePatch Sha256.sha256 (patchFromFiles [emptyFile]) .default =
        .error (.malformed 3 "file has no unambiguous path")) ∧
    (GitlabDiff emptyDiff emptyEntry ∧ Within .default (patchFromDiffs [emptyDiff]) [emptyEntry] ∧
      parsePatch Sha256.sha256 (patchFromDiffs [emptyDiff]) .default =
        .error (.malformed 3 "file has no unambiguous path")) := by
  refine ⟨⟨nofun, by decide, .nil, by simp [Entry.texts, emptyEntry]⟩, ⟨?_, ?_, ?_⟩, ⟨?_, ?_, ?_⟩⟩
  · exact ⟨by decide, by decide, by decide, rfl, rfl⟩
  · exact ⟨by decide, by decide +kernel, by decide, by decide, by decide +kernel⟩
  · decide +kernel
  · exact ⟨by decide, by decide, by decide, by decide, rfl, rfl⟩
  · exact ⟨by decide, by decide +kernel, by decide, by decide, by decide +kernel⟩
  · decide +kernel

end Rebuilt
end Proof
end Diffz
