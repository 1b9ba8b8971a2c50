import Diffz.Core.Stored
import Diffz.Proof.Fingerprint

/-!
# Snapshots survive storage

Every stored type is read back as it was written, in either form of its paths; the one thing a
snapshot loses is the blame that could not be read. The identity is taken over the byte-array form
whatever the stored form was, so it is the same before and after.
-/

set_option autoImplicit false

namespace Diffz
namespace Proof

open Diffz.Json (InWidth Reads)

/-! ## Enumerations -/

theorem side_reads : Reads Side.fromJson Side.toJson fun _ => True := by
  rintro (_ | _) - <;> rfl

theorem lineEnding_reads : Reads LineEnding.fromJson LineEnding.toJson fun _ => True := by
  rintro (_ | _ | _) - <;> rfl

theorem rowKind_reads : Reads RowKind.fromJson RowKind.toJson fun _ => True := by
  rintro (_ | _ | _) - <;> rfl

theorem changeKind_reads : Reads ChangeKind.fromJson ChangeKind.toJson fun _ => True := by
  rintro (_ | _ | _ | _ | _) - <;> rfl

theorem contentKind_reads : Reads ContentKind.fromJson ContentKind.toJson fun _ => True := by
  rintro (_ | _ | _) - <;> rfl

theorem reviewDecision_reads :
    Reads ReviewDecision.fromJson ReviewDecision.toJson fun _ => True := by
  rintro (_ | _) - <;> rfl

theorem str_reads : Reads Json.asStr Json.str fun _ => True := fun _ _ => rfl

/-! ## Paths -/

theorem repoPath_new (p : RepoPath) : RepoPath.new p.bytes = .ok p := by
  unfold RepoPath.new
  rw [dif_pos p.valid]

theorem legacyPath_reads (p : RepoPath) : RepoPath.fromJson p.legacyJson = some p := by
  have hbytes : (p.bytes.map fun b => Json.num b.toNat).mapM (Json.asUint 8) =
      some (p.bytes.map UInt8.toNat) := by
    rw [show (fun b : UInt8 => Json.num b.toNat) = (fun n : Nat => Json.num n) ∘ UInt8.toNat from rfl,
      ← List.map_map]
    refine Json.mapM_map_eq_some ?_
    intro n hn
    obtain ⟨b, -, rfl⟩ := List.mem_map.mp hn
    exact Json.asUint_natCast (w := 8) b.toNat_lt
  have hback : (p.bytes.map UInt8.toNat).map UInt8.ofNat = p.bytes := by
    simp [List.map_map, Function.comp_def]
  simp only [RepoPath.legacyJson, RepoPath.fromJson, hbytes, Option.bind_some, hback, repoPath_new]
  rfl

theorem repoPath_reads (legacy : Bool) :
    Reads RepoPath.fromJson (RepoPath.toJson legacy) fun _ => True := by
  intro p _
  unfold RepoPath.toJson
  split
  · rename_i text htext
    split
    · exact legacyPath_reads p
    · simp only [RepoPath.fromJson, asBytes_of_fromUtf8 htext, repoPath_new]
      rfl
  · exact legacyPath_reads p

theorem repoPath_ne_null (legacy : Bool) (p : RepoPath) : p.toJson legacy ≠ .null := by
  unfold RepoPath.toJson
  split
  · split
    · exact nofun
    · exact nofun
  · exact nofun

/-! ## Patches -/

theorem patchRow_reads : Reads PatchRow.fromJson PatchRow.toJson PatchRow.Fits := by
  rintro r ⟨hold, hnew⟩
  simp [PatchRow.fromJson, PatchRow.toJson, Json.required, Json.optional, Json.orDefault, Json.field,
    Json.asUint_ofNat? hold, Json.asUint_ofNat? hnew, lineEnding_reads _ trivial,
    rowKind_reads _ trivial]

theorem hunk_reads : Reads Hunk.fromJson Hunk.toJson Hunk.Fits := by
  rintro h ⟨hos, hoc, hns, hnc, hrows⟩
  simp [Hunk.fromJson, Hunk.toJson, Json.required, Json.field, Json.asUint_natCast hos,
    Json.asUint_natCast hoc, Json.asUint_natCast hns, Json.asUint_natCast hnc,
    patchRow_reads.list _ hrows]

theorem fileChange_reads (legacy : Bool) : Reads FileChange.fromJson (FileChange.toJson legacy)
    fun f => ∀ h ∈ f.hunks, h.Fits := by
  intro f hf
  have hpath := (repoPath_reads legacy).option (repoPath_ne_null legacy)
  simp [FileChange.fromJson, FileChange.toJson, Json.required, Json.optional, Json.orDefault,
    Json.field, hpath f.oldPath fun _ _ => trivial, hpath f.newPath fun _ _ => trivial,
    changeKind_reads _ trivial, contentKind_reads _ trivial, hunk_reads.list _ hf,
    str_reads.list f.metadata fun _ _ => trivial]

theorem patchReport_reads (legacy : Bool) : Reads PatchReport.fromJson (PatchReport.toJson legacy)
    PatchReport.Fits := by
  intro p hp
  simp [PatchReport.fromJson, PatchReport.toJson, Json.required, Json.field,
    (fileChange_reads legacy).list _ hp]

/-! ## Targets -/

theorem repositoryKey_reads : Reads RepositoryKey.fromJson RepositoryKey.toJson
    fun r => InWidth 64 r.id := by
  intro r hr
  simp [RepositoryKey.fromJson, RepositoryKey.toJson, Json.required, Json.field,
    Json.asUint_natCast hr]

theorem compareRefs_reads : Reads CompareRefs.fromJson CompareRefs.toJson fun _ => True := by
  intro c _
  simp [CompareRefs.fromJson, CompareRefs.toJson, Json.required, Json.field]

theorem entireTarget_reads : Reads EntireTarget.fromJson EntireTarget.toJson fun _ => True := by
  intro e _
  simp [EntireTarget.fromJson, EntireTarget.toJson, Json.required, Json.optional, Json.orDefault,
    Json.field,
    str_reads.skipped (fun _ => Json.noConfusion) (o := e.projectTrailId) fun _ _ => trivial]

theorem remoteTarget_reads : Reads RemoteTarget.fromJson RemoteTarget.toJson RemoteTarget.Fits := by
  rintro t ⟨hid, hpr⟩
  have hprovider : ((if t.provider = .github then none else some (Json.str t.provider.val)).map
      fun v => v.asStr.map ProviderId.mk).getD (some .github) = some t.provider := by
    split
    · rename_i h
      rw [h]
      rfl
    · rfl
  have hmerged : (if t.merged = true then some (some true) else none).getD (some false) =
      some t.merged := by
    cases t.merged <;> rfl
  simp [RemoteTarget.fromJson, RemoteTarget.toJson, Json.required, Json.optional, Json.orDefault,
    Json.field, hprovider, hmerged, repositoryKey_reads _ hid,
    Json.asUint_natCast hpr,
    compareRefs_reads.skipped (fun _ => Json.noConfusion) (o := t.compare) fun _ _ => trivial,
    entireTarget_reads.skipped (fun _ => Json.noConfusion) (o := t.entire) fun _ _ => trivial]

/-! ## Review details -/

theorem check_reads : Reads Check.fromJson Check.toJson fun _ => True := by
  intro c _
  simp [Check.fromJson, Check.toJson, Json.required, Json.optional, Json.orDefault, Json.field]

theorem conversationComment_reads : Reads ConversationComment.fromJson ConversationComment.toJson
    fun c => InWidth 64 c.id := by
  intro c hc
  simp [ConversationComment.fromJson, ConversationComment.toJson, Json.required, Json.optional,
    Json.orDefault, Json.field, Json.asUint_natCast hc]

theorem blamed_reads : Reads Blamed.fromJson Blamed.toJson Blamed.Fits := by
  rintro b ⟨hstart, hstop, hrelease⟩
  simp [Blamed.fromJson, Blamed.toJson, Json.required, Json.field, Json.asUint_natCast hstart,
    Json.asUint_natCast hstop, Json.asUint_natCast hrelease]

theorem releaseFile_reads : Reads ReleaseFile.fromJson ReleaseFile.toJson ReleaseFile.Fits := by
  rintro f ⟨hadd, hdel⟩
  simp [ReleaseFile.fromJson, ReleaseFile.toJson, Json.required, Json.optional, Json.orDefault,
    Json.field, Json.asUint_natCast hadd, Json.asUint_natCast hdel,
    str_reads.skipped (fun _ => nofun) (o := f.previous) fun _ _ => trivial]

/-- A list that is skipped when it is empty. -/
theorem skipEmpty_reads {α : Type} {read : Json → Option α} {write : α → Json} {ok : α → Prop}
    (h : Reads read write ok) {l : List α} (hl : ∀ a ∈ l, ok a) :
    ((skipEmpty write l).map (Json.asList read)).getD (some []) = some l := by
  cases l with
  | nil => rfl
  | cons a l => exact h.list (a :: l) hl

theorem release_reads : Reads Release.fromJson Release.toJson Release.Fits := by
  rintro r ⟨hcommits, hfiles⟩
  simp [Release.fromJson, Release.toJson, Json.required, Json.optional, Json.orDefault, Json.field,
    Json.asUint_natCast hcommits, releaseFile_reads.list _ hfiles,
    skipEmpty_reads str_reads (l := r.shas) fun _ _ => trivial]

/-! ## Blame -/

/-- What was written of a blame is what could be read of it. -/
theorem readBlame_reads {b : BlameRead}
    (h : ∀ e ∈ b.entries, ∀ ranges ∈ e.2, ∀ r ∈ ranges, r.Fits) :
    BlameRead.fromJson (readBlame b) = some b.stored := by
  have hentries : ∀ l : List (String × Option (List Blamed)),
      (∀ e ∈ l, ∀ ranges ∈ e.2, ∀ r ∈ ranges, r.Fits) →
      (l.filterMap fun e => e.2.map fun ranges => (e.1, Json.arr (ranges.map Blamed.toJson))).mapM
        (fun f => (Json.asOption (Json.asList Blamed.fromJson) f.2).map fun ranges => (f.1, ranges)) =
      some (l.filter fun e => e.2.isSome) := by
    intro l hl
    induction l with
    | nil => rfl
    | cons e l ih =>
      have hrest := ih fun a ha => hl a (List.mem_cons_of_mem e ha)
      obtain ⟨path, ranges⟩ := e
      cases ranges with
      | none => simpa using hrest
      | some ranges =>
        have hranges := (blamed_reads.list.option fun _ => nofun) (some ranges)
          (hl (path, some ranges) List.mem_cons_self)
        simp only [Option.map_some, Option.getD_some] at hranges
        simp [hranges, hrest]
  simp only [readBlame, BlameRead.fromJson, hentries b.entries h]
  exact congrArg some (OrdMap.ofList_entries b.stored)

/-- A blame of nothing is skipped, and nothing is what its default gives back. -/
theorem blame_reads {b : BlameRead}
    (h : ∀ e ∈ b.entries, ∀ ranges ∈ e.2, ∀ r ∈ ranges, r.Fits) :
    ((if b.isEmpty then none else some (readBlame b)).map BlameRead.fromJson).getD (some .empty) =
      some b.stored := by
  split
  · rename_i hempty
    have hnil : b.entries = [] := List.isEmpty_iff.mp hempty
    refine congrArg some (OrdMap.eq_of_entries ?_)
    simp [BlameRead.stored, OrdMap.filter, OrdMap.empty, hnil]
  · exact readBlame_reads h

theorem overview_reads {o : Overview} (h : o.Fits) :
    Overview.fromJson o.toJson = some { o with blame := o.blame.stored } := by
  have hdecision := (reviewDecision_reads.option fun d => by cases d <;> exact nofun) o.decision
    fun _ _ => trivial
  have hblame := blame_reads h.blame
  simp [Overview.fromJson, Overview.toJson, Json.required, Json.optional, Json.orDefault, Json.field,
    hdecision, hblame, check_reads.list o.checks fun _ _ => trivial,
    str_reads.list o.notices fun _ _ => trivial, Json.asUint_ofNat? h.capturedAt,
    conversationComment_reads.list _ h.conversation, skipEmpty_reads release_reads h.releases]

/-! ## Snapshots -/

theorem threadComment_reads : Reads ThreadComment.fromJson ThreadComment.toJson
    ThreadComment.Fits := by
  rintro c ⟨hid, hroot, hline, hstart⟩
  have hside := (side_reads.option fun s => by cases s <;> exact nofun) c.side fun _ _ => trivial
  have hbool : Reads Json.asBool Json.bool fun _ => True := fun _ _ => rfl
  have hlevel := hbool.skipped (fun _ => nofun) (o := c.fileLevel) fun _ _ => trivial
  simp [ThreadComment.fromJson, ThreadComment.toJson, Json.required, Json.optional, Json.orDefault,
    Json.field, hside, hlevel, Json.asUint_natCast hid, Json.asUint_natCast hroot,
    Json.asUint_ofNat? hline, Json.asUint_ofNat? hstart]

theorem snapshot_reads (legacy : Bool) {s : Snapshot} (h : s.Fits) :
    Snapshot.fromJson (s.toJson legacy) = some s.stored := by
  have hremote := (remoteTarget_reads.option fun _ => nofun) s.remote h.remote
  simp [Snapshot.fromJson, Snapshot.toJson, Json.required, Json.optional, Json.orDefault, Json.field,
    hremote, patchReport_reads legacy _ h.patch, threadComment_reads.list _ h.comments,
    overview_reads h.overview, str_reads.list s.warnings fun _ _ => trivial, Snapshot.stored]

/-! ## What is written can be parsed

Each type nests as deep as its fields and one more; the numbers are of at most 64 bits. -/

section Plain

variable {d : Nat}

theorem path_plain (legacy : Bool) (p : RepoPath) : Json.Plain (d + 1) (p.toJson legacy) := by
  have hlegacy : Json.Plain (d + 1) p.legacyJson := by
    refine Json.plain_map fun b _ => .num ?_
    exact Json.InWidth.le (v := 8) b.toNat_lt (by decide)
  unfold RepoPath.toJson
  split
  · split
    · exact hlegacy
    · exact .str _
  · exact hlegacy

theorem width_plain {n : Option Nat} (h : ∀ m ∈ n, InWidth 32 m) : Json.Plain d (.ofNat? n) :=
  Json.plain_ofNat? fun m hm => (h m hm).le (by decide)

theorem patchRow_plain {r : PatchRow} (h : r.Fits) : Json.Plain (d + 1) r.toJson := by
  obtain ⟨hold, hnew⟩ := h
  have hending : Json.Plain d r.ending.toJson := by cases r.ending <;> exact .str _
  have hkind : Json.Plain d r.kind.toJson := by cases r.kind <;> exact .str _
  simp [PatchRow.toJson, hending, hkind, width_plain hold, width_plain hnew]

theorem hunk_plain {h : Hunk} (hh : h.Fits) : Json.Plain (d + 3) h.toJson := by
  obtain ⟨hos, hoc, hns, hnc, hrows⟩ := hh
  have hnum : ∀ {n : Nat}, InWidth 32 n → Json.Plain (d + 2) (.num n) :=
    fun hn => .num (hn.le (by decide))
  simp [Hunk.toJson, hnum hos, hnum hoc, hnum hns, hnum hnc,
    Json.plain_map (d := d + 1) fun r hr => patchRow_plain (hrows r hr)]

theorem fileChange_plain (legacy : Bool) {f : FileChange} (h : ∀ h ∈ f.hunks, h.Fits) :
    Json.Plain (d + 5) (f.toJson legacy) := by
  have hkind : Json.Plain (d + 4) f.kind.toJson := by cases f.kind <;> exact .str _
  have hcontent : Json.Plain (d + 4) f.content.toJson := by cases f.content <;> exact .str _
  have hpath : ∀ p : Option RepoPath,
      Json.Plain (d + 4) ((p.map (RepoPath.toJson legacy)).getD .null) :=
    fun p => Json.plain_option fun p _ => path_plain legacy p
  simp [FileChange.toJson, hkind, hcontent, hpath,
    Json.plain_map (d := d + 3) fun k hk => hunk_plain (h k hk),
    Json.plain_map (d := d + 3) (l := f.metadata) fun t _ => Json.Plain.str t]

theorem patchReport_plain (legacy : Bool) {p : PatchReport} (h : p.Fits) :
    Json.Plain (d + 7) (p.toJson legacy) := by
  simp [PatchReport.toJson, Json.plain_map (d := d + 5) fun f hf => fileChange_plain legacy (h f hf)]

theorem remoteTarget_plain {t : RemoteTarget} (h : t.Fits) : Json.Plain (d + 2) t.toJson := by
  obtain ⟨hid, hpr⟩ := h
  have hrepository : Json.Plain (d + 1) t.repository.toJson := by
    simp [RepositoryKey.toJson, Json.Plain.num hid]
  have hcompare : ∀ c : CompareRefs, Json.Plain (d + 1) c.toJson := by
    simp [CompareRefs.toJson]
  have hentire : ∀ e : EntireTarget, Json.Plain (d + 1) e.toJson := by
    simp [EntireTarget.toJson]
  simp [RemoteTarget.toJson, hrepository, Json.Plain.num hpr, hcompare, hentire]

theorem release_plain {r : Release} (h : r.Fits) : Json.Plain (d + 3) r.toJson := by
  obtain ⟨hcommits, hfiles⟩ := h
  have hfile : ∀ f ∈ r.files, Json.Plain (d + 1) f.toJson := by
    intro f hf
    simp [ReleaseFile.toJson, Json.Plain.num (hfiles f hf).1, Json.Plain.num (hfiles f hf).2]
  simp [Release.toJson, skipEmpty, Json.Plain.num hcommits, Json.plain_map hfile,
    Json.plain_map (d := d + 1) (l := r.shas) fun t _ => Json.Plain.str t]

theorem readBlame_plain {b : BlameRead}
    (h : ∀ e ∈ b.entries, ∀ ranges ∈ e.2, ∀ r ∈ ranges, r.Fits) : Json.Plain (d + 3) (readBlame b) := by
  refine .obj ?_
  intro f hf
  obtain ⟨e, he, heq⟩ := List.mem_filterMap.mp hf
  obtain ⟨ranges, hranges, rfl⟩ := Option.map_eq_some_iff.mp heq
  refine Json.plain_map ?_
  intro r hr
  obtain ⟨hstart, hstop, hrelease⟩ := h e he ranges hranges r hr
  simp [Blamed.toJson, Json.Plain.num (hstart.le (by decide)), Json.Plain.num (hstop.le (by decide)),
    Json.Plain.num hrelease]

theorem overview_plain {o : Overview} (h : o.Fits) : Json.Plain (d + 5) o.toJson := by
  have hdecision : Json.Plain (d + 4) ((o.decision.map ReviewDecision.toJson).getD .null) :=
    Json.plain_option fun r _ => by cases r <;> exact .str _
  have hcheck : ∀ c : Check, Json.Plain (d + 3) c.toJson := by
    simp [Check.toJson]
  have hcomment : ∀ c ∈ o.conversation, Json.Plain (d + 3) c.toJson := by
    intro c hc
    simp [ConversationComment.toJson, Json.Plain.num (h.conversation c hc)]
  simp [Overview.toJson, skipEmpty, hdecision, Json.plain_map (l := o.checks) fun c _ => hcheck c,
    Json.plain_map hcomment, Json.plain_map (d := d + 3) (l := o.notices) fun t _ => Json.Plain.str t,
    Json.plain_ofNat? h.capturedAt, Json.plain_map fun r hr => release_plain (h.releases r hr),
    readBlame_plain (d := d + 1) h.blame]

theorem threadComment_plain {c : ThreadComment} (h : c.Fits) : Json.Plain (d + 1) c.toJson := by
  obtain ⟨hid, hroot, hline, hstart⟩ := h
  have hside : Json.Plain d ((c.side.map Side.toJson).getD .null) :=
    Json.plain_option fun s _ => by cases s <;> exact .str _
  have hlevel : ∀ j ∈ c.fileLevel.map Json.bool, Json.Plain d j := by
    intro j hj
    obtain ⟨b, -, rfl⟩ := Option.map_eq_some_iff.mp hj
    exact .bool b
  simp only [ThreadComment.toJson, Json.plain_obj, Json.plainFields_append,
    Json.plainFields_skipNone]
  refine ⟨⟨?_, hlevel⟩, by simp⟩
  simp [hside, Json.Plain.num hid, Json.Plain.num hroot, width_plain hline, width_plain hstart]

theorem snapshot_plain (legacy : Bool) {s : Snapshot} (h : s.Fits) :
    Json.Plain (d + 8) (s.toJson legacy) := by
  have hremote : Json.Plain (d + 7) ((s.remote.map RemoteTarget.toJson).getD .null) :=
    Json.plain_option fun t ht => remoteTarget_plain (d := d + 5) (h.remote t ht)
  have hcomments := Json.plain_map fun c hc => threadComment_plain (d := d + 5) (h.comments c hc)
  simp [Snapshot.toJson, patchReport_plain legacy h.patch, hremote, hcomments,
    overview_plain (d := d + 2) h.overview,
    Json.plain_map (d := d + 6) (l := s.warnings) fun t _ => Json.Plain.str t]

end Plain

/-! ## Storage -/

/-- What a snapshot is read back as, in either form of the paths. -/
theorem fromSlice_toVec {parse : Bytes → Option Json} (hparse : Json.ParsesBack parse)
    {s : Snapshot} (h : s.Fits) (legacy : Bool) :
    Snapshot.fromSlice parse (s.toVec legacy) = some s.stored := by
  rw [Snapshot.fromSlice, Snapshot.toVec, hparse _ (snapshot_plain (d := 119) legacy h)]
  exact snapshot_reads legacy h

/-- `t` is `s` but for the files whose blame could not be read. -/
structure KeptFrom (s t : Snapshot) : Prop where
  id : t.id = s.id
  title : t.title = s.title
  origin : t.origin = s.origin
  patch : t.patch = s.patch
  remote : t.remote = s.remote
  comments : t.comments = s.comments
  warnings : t.warnings = s.warnings
  overview : t.overview = { s.overview with blame := t.overview.blame }
  blame : t.overview.blame.entries = s.overview.blame.entries.filter fun e => e.2.isSome

theorem keptFrom_stored (s : Snapshot) : KeptFrom s s.stored :=
  ⟨rfl, rfl, rfl, rfl, rfl, rfl, rfl, rfl, rfl⟩

/-- The identity is over nothing that storage changes. -/
theorem KeptFrom.verifyIdentity {s t : Snapshot} (h : KeptFrom s t) (hashes : Hashes) :
    t.verifyIdentity hashes = s.verifyIdentity hashes := by
  unfold Snapshot.verifyIdentity
  rw [h.id, h.patch, h.remote, h.origin]

/-- **Snapshots survive storage.** Whichever form its paths were stored in, a snapshot is read back
as the same value, which is the one that was stored but for the blame that could not be read, and
its identity holds after as it did before. -/
theorem snapshot_survives_storage (hashes : Hashes) {parse : Bytes → Option Json}
    (hparse : Json.ParsesBack parse) (s : Snapshot) (h : s.Fits) :
    ∃ t, Snapshot.fromSlice parse (s.toVec false) = some t ∧
      Snapshot.fromSlice parse (s.toVec true) = some t ∧ KeptFrom s t ∧
      t.verifyIdentity hashes = s.verifyIdentity hashes :=
  ⟨s.stored, fromSlice_toVec hparse h false, fromSlice_toVec hparse h true, keptFrom_stored s,
    (keptFrom_stored s).verifyIdentity hashes⟩

/-- The parser of exactly what `to_vec` writes. -/
noncomputable def parseWritten : Bytes → Option Json := Function.partialInv Json.toVec

theorem parseWritten_back : Json.ParsesBack parseWritten :=
  fun j _ => Function.partialInv_left Json.toVec_injective j

/-- A renamed file of GitLab, whose old name is not UTF-8, with the blame of one file unread. -/
def renamedSnapshot : Snapshot :=
  { sampleSnapshot with
    patch := ⟨[{ sampleFile with oldPath := some ⟨[98, 255], by decide⟩, kind := .renamed }]⟩
    remote := some { sampleTarget with provider := .gitlab, merged := true }
    overview := { Overview.empty with
      blame := ⟨[("a", none), ("b", some [⟨1, 2, 0, "c3"⟩])], by decide⟩ } }

theorem renamedSnapshot_fits : renamedSnapshot.Fits where
  patch := by
    simp [renamedSnapshot, sampleFile, PatchReport.Fits, Hunk.Fits, PatchRow.Fits, InWidth]
  remote := by simp [renamedSnapshot, sampleTarget, RemoteTarget.Fits, InWidth]
  comments := nofun
  overview := ⟨nofun, nofun, nofun, by simp [renamedSnapshot, Blamed.Fits, InWidth]⟩

theorem renamedSnapshot_survives :
    ∃ t, Snapshot.fromSlice parseWritten (renamedSnapshot.toVec false) = some t ∧
      Snapshot.fromSlice parseWritten (renamedSnapshot.toVec true) = some t ∧
      KeptFrom renamedSnapshot t ∧
      t.verifyIdentity sampleHashes = renamedSnapshot.verifyIdentity sampleHashes :=
  snapshot_survives_storage sampleHashes parseWritten_back renamedSnapshot renamedSnapshot_fits

end Proof
end Diffz
