import Diffz.Proof.Patch.Sections

/-!
# The paths of a parsed file

The presence check of the parser comes before the kinds clear a path: a new file loses its old path
and a deleted one its new path afterwards, and nothing asks that a rename or a copy name both. So
whether a file ends with the paths its kind calls for depends on what its header lines said last.
`lastSaid` is that, line by line and for each of the three things a line can speak about;
`entry_goodPaths_iff` compares it with the file the parser built.
-/

set_option autoImplicit false

namespace Diffz
namespace Proof
namespace Patch

/-- The paths a file of this kind is used with. `path` is `none` where the source's `expect`
fires. -/
structure GoodPaths (f : FileChange) : Prop where
  path : f.path ≠ none
  added : f.kind = .added → f.newPath ≠ none ∧ f.oldPath = none
  deleted : f.kind = .deleted → f.oldPath ≠ none ∧ f.newPath = none
  moved : f.kind = .renamed ∨ f.kind = .copied → f.oldPath ≠ none ∧ f.newPath ≠ none

/-! ## What the header lines say -/

/-- The kind a line announces. -/
def kindSaid : HeaderLine → Option ChangeKind
  | .renameFrom _ | .renameTo _ => some .renamed
  | .copyFrom _ | .copyTo _ => some .copied
  | .newFileMode _ => some .added
  | .deletedFileMode _ => some .deleted
  | _ => none

/-- Whether a `---` or `+++` line names a path. -/
def namesPath (v : Bytes) : Bool := (v.splitOn 9).headD v ≠ devNull

/-- Whether there is an old path, if the line speaks of it. -/
def oldSaid : HeaderLine → Option Bool
  | .oldFile v => some (namesPath v)
  | .renameFrom _ | .copyFrom _ => some true
  | .newFileMode _ => some false
  | _ => none

/-- Whether there is a new path, if the line speaks of it. -/
def newSaid : HeaderLine → Option Bool
  | .newFile v => some (namesPath v)
  | .renameTo _ | .copyTo _ => some true
  | .deletedFileMode _ => some false
  | _ => none

/-- What the lines say last, or `d` where none speaks. -/
def lastSaid {α : Type} (say : HeaderLine → Option α) : List Bytes → α → α
  | [], d => d
  | l :: ls, d => lastSaid say ls ((say (headerLine l)).getD d)

/-- The lines of a file before its first hunk. -/
def headerLines (rest : List Bytes) : List Bytes :=
  rest.takeWhile fun l => !diffGit.isPrefixOf l && !hunkStart.isPrefixOf l

/-- Whether a `diff --git` line is certain about its two paths. -/
def namesBoth (v : Bytes) : Bool :=
  v.head? = some 34 || (occurrences (asBytes " b/") 0 v).length = 1

/-- Whether an old and a new path, or their absence, are enough for the kind. -/
def callsFor : ChangeKind → Bool → Bool → Bool
  | .added, _, new => new
  | .deleted, old, _ => old
  | .renamed, old, new => old && new
  | .copied, old, new => old && new
  | .modified, _, _ => true

/-- Whether a file's header names, last, the paths that the kind it announces last calls for. -/
def namesPaths : List Bytes → Bool
  | [] => true
  | l :: rest =>
    callsFor (lastSaid kindSaid (headerLines rest) .modified)
      (lastSaid oldSaid (headerLines rest) (namesBoth (l.drop 11)))
      (lastSaid newSaid (headerLines rest) (namesBoth (l.drop 11)))

/-! ## One header line -/

/-- The kind and the presence of both paths: what later decides about a file. -/
def Agrees (f : FileChange) (kind : ChangeKind) (old new : Bool) : Prop :=
  f.kind = kind ∧ f.oldPath.isSome = old ∧ f.newPath.isSome = new

theorem markerPath_ok {v : Bytes} {i : Nat} {p : Option RepoPath} (h : markerPath v i = .ok p) :
    p.isSome = namesPath v := by
  unfold markerPath at h
  unfold namesPath
  dsimp only at h
  split at h
  · rename_i hv
    cases h
    simp only [hv, ne_eq, not_true, decide_false, Option.isSome_none]
  · rename_i hv
    split at h
    · cases h
    · cases h
      simp only [ne_eq, hv, not_false_iff, decide_true, Option.isSome_some]

theorem indexLine_agrees {f : FileChange} {s : String} {kind : ChangeKind} {old new : Bool}
    (h : Agrees f kind old new) : Agrees (indexLine f s) kind old new := by
  unfold indexLine
  dsimp only
  split <;> split <;> exact h

theorem applyHeader_agrees {f f' : FileChange} {i : Nat} {l : Bytes} {kind : ChangeKind}
    {old new : Bool} (h : applyHeader f i l = .ok f') (ha : Agrees f kind old new) :
    Agrees f' ((kindSaid (headerLine l)).getD kind) ((oldSaid (headerLine l)).getD old)
      ((newSaid (headerLine l)).getD new) := by
  obtain ⟨hk, ho, hn⟩ := ha
  unfold applyHeader at h
  split at h
  case h_1 v hv =>
    obtain ⟨p, hp, h⟩ := ok_of_bind h
    cases h
    exact ⟨by rw [hv]; exact hk, by rw [hv]; exact markerPath_ok hp, by rw [hv]; exact hn⟩
  case h_2 v hv =>
    obtain ⟨p, hp, h⟩ := ok_of_bind h
    cases h
    exact ⟨by rw [hv]; exact hk, by rw [hv]; exact ho, by rw [hv]; exact markerPath_ok hp⟩
  case h_11 hv =>
    cases h
    rw [hv]
    exact ⟨hk, ho, hn⟩
  case h_12 v hv =>
    obtain ⟨s, _, h⟩ := ok_of_bind h
    cases h
    rw [hv]
    exact indexLine_agrees ⟨hk, ho, hn⟩
  case h_13 hv =>
    rw [hv]
    split at h
    · cases h
      exact ⟨hk, ho, hn⟩
    · obtain ⟨s, _, h⟩ := ok_of_bind h
      cases h
      exact ⟨hk, ho, hn⟩
  all_goals
    rename_i v hv
    obtain ⟨p, _, h⟩ := ok_of_bind h
    cases h
    rw [hv]
    first
      | exact ⟨rfl, rfl, hn⟩
      | exact ⟨rfl, ho, rfl⟩
      | exact ⟨hk, ho, hn⟩

/-! ## The whole header -/

theorem headerLines_of_atEnd {lines : List Bytes} (h : AtEnd lines) : headerLines lines = [] := by
  rcases h with rfl | ⟨l, rest, rfl, hl⟩
  · rfl
  · simp [headerLines, hl]

/-- After the first hunk nothing speaks about paths. -/
theorem SectionRun.agrees_of_hunks {limits : ParseLimits} {f f' : FileChange} {c c' : Cursor}
    (h : SectionRun limits f c f' c') (hf : f.hunks ≠ []) {kind : ChangeKind} {old new : Bool}
    (ha : Agrees f kind old new) : Agrees f' kind old new := by
  induction h with
  | stop _ => exact ha
  | hunk _ _ _ _ ih => exact ih (by simp [pushHunk]) ha
  | blank _ _ ih => exact ih hf ha
  | trailer _ => exact ha
  | header _ _ hnil _ _ _ => exact absurd hnil hf

theorem SectionRun.agrees {limits : ParseLimits} {f f' : FileChange} {c c' : Cursor}
    (h : SectionRun limits f c f' c') (hf : f.hunks = []) {kind : ChangeKind} {old new : Bool}
    (ha : Agrees f kind old new) :
    Agrees f' (lastSaid kindSaid (headerLines c.rest) kind)
      (lastSaid oldSaid (headerLines c.rest) old) (lastSaid newSaid (headerLines c.rest) new) := by
  induction h generalizing kind old new with
  | stop hs =>
    rw [headerLines_of_atEnd hs]
    exact ha
  | @hunk f f' totalRows i l rest h c c' hl hl' hh hr _ =>
    have hnil : headerLines (l :: rest) = [] := by simp [headerLines, hl, hl']
    rw [hnil]
    exact hr.agrees_of_hunks (by simp [pushHunk]) ha
  | blank hne _ _ => exact absurd hf hne
  | trailer hne => exact absurd hf hne
  | @header f f₁ f' totalRows i l rest c' hl hl' _ happ _ ih =>
    have hcons : headerLines (l :: rest) = l :: headerLines rest := by
      simp only [headerLines, List.takeWhile_cons, hl, hl']
      rfl
    rw [hcons]
    exact ih (applyHeader_hunks happ ▸ hf) (applyHeader_agrees happ ha)

theorem headerPaths_ok {v : Bytes} {i : Nat} {old new : Option RepoPath}
    (h : headerPaths v i = .ok (old, new)) :
    old.isSome = namesBoth v ∧ new.isSome = namesBoth v := by
  unfold headerPaths at h
  unfold namesBoth
  split at h
  · rename_i hq
    split at h
    · split at h
      · obtain ⟨p, _, h⟩ := ok_of_bind h
        obtain ⟨q, _, h⟩ := ok_of_bind h
        cases h
        simp [hq]
      · cases h
    · cases h
  · rename_i hq
    split at h
    · rename_i i ho
      obtain ⟨p, _, h⟩ := ok_of_bind h
      obtain ⟨q, _, h⟩ := ok_of_bind h
      cases h
      simp [ho]
    · rename_i ho
      cases h
      have hlen : (occurrences (asBytes " b/") 0 v).length ≠ 1 := by
        intro hlen
        obtain ⟨i, hi⟩ := List.length_eq_one_iff.mp hlen
        exact ho i hi
      simp [hq, hlen]

/-! ## The finished file -/

/-- The presence check has passed, and then the kind takes one path away. -/
theorem finishFile_ok {sha256 : Bytes → Bytes} {f f' : FileChange} {i : Nat} {kind : ChangeKind}
    {old new : Bool} (h : finishFile sha256 f i = .ok f') (ha : Agrees f kind old new) :
    (old = true ∨ new = true) ∧
      Agrees f' kind (if kind = .added then false else old)
        (if kind = .deleted then false else new) := by
  obtain ⟨rfl, rfl, rfl⟩ := ha
  unfold finishFile at h
  split at h
  · cases h
  · rename_i hp
    cases h
    constructor
    · by_contra hn
      refine hp ⟨?_, ?_⟩
      · simpa using fun h => hn (.inl h)
      · simpa using fun h => hn (.inr h)
    · cases hk : f.kind
      all_goals
        unfold Agrees
        dsimp only
        split <;> simp [hk]

/-- `GoodPaths` on the kind and the presence of the two paths. -/
def goodShape (kind : ChangeKind) (old new : Bool) : Bool :=
  match kind with
  | .added => new && !old
  | .deleted => old && !new
  | .renamed | .copied => old && new
  | .modified => old || new

theorem goodPaths_iff_shape (f : FileChange) :
    GoodPaths f ↔ goodShape f.kind f.oldPath.isSome f.newPath.isSome = true := by
  obtain ⟨_, old, new, kind, _, _, _, _, _, _, _⟩ := f
  constructor
  · rintro ⟨hp, ha, hd, hm⟩
    cases kind <;> cases old <;> cases new <;> simp_all [goodShape, FileChange.path]
  · intro h
    constructor <;>
    cases kind <;> cases old <;> cases new <;> simp_all [goodShape, FileChange.path]

theorem goodShape_iff_callsFor {kind : ChangeKind} {old new : Bool}
    (hp : old = true ∨ new = true) :
    goodShape kind (if kind = .added then false else old)
      (if kind = .deleted then false else new) = true ↔ callsFor kind old new = true := by
  cases kind <;> simp [goodShape, callsFor, hp]

/-- **What decides about a file's paths.** -/
theorem entry_goodPaths_iff {sha256 : Bytes → Bytes} {limits : ParseLimits} {tail : List Bytes}
    {f : FileChange} (h : EntryFor sha256 limits tail f) :
    GoodPaths f ↔ namesPaths tail = true := by
  obtain ⟨l, rest, totalRows, i, c, rfl, hs⟩ := h
  obtain ⟨old, new, f₁, hhead, hsec, hfin⟩ := (fileSection_run hs).run
  obtain ⟨ho, hn⟩ := headerPaths_ok hhead
  have hnew : Agrees (newFile old new) .modified (namesBoth (l.drop 11)) (namesBoth (l.drop 11)) :=
    ⟨rfl, ho, hn⟩
  have ha := hsec.agrees rfl hnew
  obtain ⟨hp, hk, ho, hn⟩ := finishFile_ok hfin ha
  rw [goodPaths_iff_shape, hk, ho, hn]
  exact goodShape_iff_callsFor hp

/-! ## The report -/

theorem FilesRun.seen_nodup {sha256 : Bytes → Bytes} {limits : ParseLimits}
    {files out : List FileChange} {totalRows i : Nat} {lines : List Bytes}
    (h : FilesRun sha256 limits files totalRows i lines out) (hn : (seen files).Nodup) :
    (seen out).Nodup := by
  induction h with
  | nil => exact hn
  | preamble _ _ ih => exact ih hn
  | between _ _ _ ih => exact ih hn
  | @file files _ _ _ _ f _ _ _ _ _ hnew _ ih =>
    refine ih ?_
    unfold seen at *
    rw [List.map_append, List.map_singleton, List.nodup_append]
    refine ⟨hn, List.pairwise_singleton _ _, fun a ha b hb hab => ?_⟩
    rw [List.mem_singleton] at hb
    exact hnew (hb ▸ hab ▸ ha)

theorem forall_mem_iff_of_forall₂ {α β : Type} {R : α → β → Prop} {P : α → Prop} {Q : β → Prop}
    (hpq : ∀ a b, R a b → (Q b ↔ P a)) {as : List α} {bs : List β}
    (h : List.Forall₂ R as bs) : (∀ b ∈ bs, Q b) ↔ ∀ a ∈ as, P a := by
  induction h with
  | nil => simp
  | cons hab _ ih => rw [List.forall_mem_cons, List.forall_mem_cons, hpq _ _ hab, ih]

/-- **Which patches leave a file without its paths.** Ids are distinct in every accepted report; the
paths are those the kinds call for exactly when each header before the mail trailer names them. -/
theorem parsePatch_paths_iff {sha256 : Bytes → Bytes} {bytes : Bytes} {limits : ParseLimits}
    {report : PatchReport} (h : parsePatch sha256 bytes limits = .ok report) :
    ((∀ f ∈ report.files, GoodPaths f) ∧ (report.files.map (·.id)).Nodup) ↔
      ∀ tail ∈ readTails .preamble (splitLines bytes), namesPaths tail = true := by
  have hnodup : (report.files.map (·.id)).Nodup := (parsePatch_run h).seen_nodup List.nodup_nil
  rw [and_iff_left hnodup]
  exact forall_mem_iff_of_forall₂ (fun _ _ he => entry_goodPaths_iff he) (parsePatch_entries h)

/-- A new file, a deleted one and a rename. -/
def kindsPatch : Bytes :=
  asBytes "diff --git a/x b/x\nnew file mode 100644\n--- /dev/null\n+++ b/x\n@@ -0,0 +1 @@\n+a\ndiff --git a/y b/y\ndeleted file mode 100644\ndiff --git a/b b/a b/b\nrename from a b/b\nrename to c\n"

set_option maxRecDepth 2048 in
theorem kindsPatch_accepted : (parsePatch Sha256.sha256 kindsPatch .default).isOk = true := by
  -- The bytes come from the characters: the kernel takes long over the bytes of a long literal.
  rw [show kindsPatch = _ from asBytes_ofList _]
  decide +kernel

theorem kindsPatch_goodPaths :
    ∃ report, parsePatch Sha256.sha256 kindsPatch .default = .ok report ∧
      (∀ f ∈ report.files, GoodPaths f) ∧ (report.files.map (·.id)).Nodup := by
  obtain ⟨report, h⟩ := ok_of_isOk kindsPatch_accepted
  exact ⟨report, h, (parsePatch_paths_iff h).mpr (by decide +kernel)⟩

/-- A new file whose marker lines name the other side. -/
def newFileToDevNull : Bytes :=
  asBytes "diff --git a/x b/x\nnew file mode 100644\n--- a/x\n+++ /dev/null\n"

/-- It is accepted, and `FileChange::path` has nothing to return. -/
theorem newFileToDevNull_has_no_path :
    ∃ report, parsePatch Sha256.sha256 newFileToDevNull .default = .ok report ∧
      (∃ f ∈ report.files, f.path = none) ∧ ¬ ∀ f ∈ report.files, GoodPaths f := by
  have hpaths : (parsePatch Sha256.sha256 newFileToDevNull .default).map
      (fun r => r.files.any fun f => f.path = none) = .ok true := by decide +kernel
  obtain ⟨report, h, hany⟩ := ok_of_map hpaths
  obtain ⟨f, hf, hnone⟩ := List.any_eq_true.mp hany
  have hnone : f.path = none := of_decide_eq_true hnone
  exact ⟨report, h, ⟨f, hf, hnone⟩, fun hall => (hall f hf).path hnone⟩

end Patch
end Proof
end Diffz
