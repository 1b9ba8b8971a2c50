import Diffz.Proof.Fingerprint
import Diffz.Proof.Store.Rows

/-!
# A stored draft keeps its identity

`save_draft` compares the place of a draft with the row it would replace, its snapshot, file, side
and lines, and checks the lines of a draft that is not on a whole file. The flag `file_level` it does
not compare, so a save can turn a draft on lines into one on the whole file (`resave_changes_level`).
While every save of a stored draft carries the flag of its row, a row keeps everything it is known by
until it is deleted.
-/

set_option autoImplicit false

namespace Diffz
namespace Proof

variable {hashes : Hashes} {db db' : Db} {op : StoreOp} {x : DraftId}

/-! ## The operations -/

/-- The operation stores no snapshot. -/
def LeavesPatches (op : StoreOp) : Prop := ∀ s now, op ≠ .putSnapshot s now

/-- A save of a stored draft, on the lines it has, carries the `file_level` of the row. -/
def KeepsLevel (db : Db) (op : StoreOp) : Prop :=
  ∀ d row, op = .saveDraft d → db.drafts.find d.id = some row → SamePlace row.data d →
    row.data.fileLevel = d.fileLevel

/-- The row of `x` is still there after the operation. -/
def KeepsRow (hashes : Hashes) (x : DraftId) (db : Db) (op : StoreOp) : Prop :=
  ((Store.after hashes db op).drafts.find x).isSome

/-! ## Snapshots -/

theorem snapshot_ok_iff {id : SnapshotId} {s : Snapshot} :
    Store.snapshot hashes db id = .ok s ↔ ∃ row, db.snapshots.find id = some row ∧
      row.data.verifyIdentity hashes ∧ s = Store.overlaid row.data
        (Store.blameRows db id (releasesKey hashes.sha256 row.data.overview.releases)) := by
  unfold Store.snapshot
  constructor
  · intro h
    split at h
    · cases h
    · rename_i row hrow
      split at h
      · rename_i hv
        cases h
        exact ⟨row, hrow, hv, rfl⟩
      · cases h
  · rintro ⟨row, hrow, hv, rfl⟩
    rw [hrow]
    dsimp only
    rw [if_pos hv]

/-- A snapshot goes on with its data, or is pruned. -/
theorem Wrote.snapshot_data (h : Wrote hashes db op db') (hop : LeavesPatches op) {id : SnapshotId}
    {row : SnapshotRow} (hrow : db.snapshots.find id = some row) :
    (∃ row', db'.snapshots.find id = some row' ∧ row'.data = row.data) ∨
      ∃ keep, db' = Store.prune db keep ∧ Gone db keep id := by
  have htouch : ∀ (db₁ : Db) (i : SnapshotId) (now : Nat), db₁.snapshots = db.snapshots →
      ∃ row', (Store.touch db₁ i now).snapshots.find id = some row' ∧ row'.data = row.data := by
    intro db₁ i now hsame
    rw [touch_find, hsame, hrow]
    refine ⟨_, rfl, ?_⟩
    split <;> rfl
  cases h with
  | put hput => exact absurd rfl (hop _ _)
  | blamed href => exact .inl (htouch _ _ _ rfl)
  | shown => exact .inl (htouch _ _ _ rfl)
  | saved hs =>
    rw [hs.result]
    exact .inl ⟨row, hrow, rfl⟩
  | moved _ hm =>
    rw [hm.snapshots]
    exact .inl ⟨row, hrow, rfl⟩
  | pruned =>
    rename_i keep
    by_cases hg : Gone db keep id
    · exact .inr ⟨keep, rfl, hg⟩
    · rw [prune_snapshots_find, if_neg hg]
      exact .inl ⟨row, hrow, rfl⟩
  | _ => exact .inl ⟨row, hrow, rfl⟩

/-- The place of a draft is still there while its snapshot is. -/
theorem PlacedIn.step {d : Draft} {s : Snapshot} {f : FileChange} (h : Wrote hashes db op db')
    (hop : LeavesPatches op) (hp : PlacedIn hashes db d s f)
    (hkept : ∀ keep, db' = Store.prune db keep → ¬ Gone db keep d.snapshot) :
    ∃ s', PlacedIn hashes db' d s' f := by
  obtain ⟨row, hrow, hv, rfl⟩ := snapshot_ok_iff.mp hp.read
  rcases h.snapshot_data hop hrow with ⟨row', hrow', hdata⟩ | ⟨keep, hdb, hg⟩
  · refine ⟨_, snapshot_ok_iff.mpr ⟨row', hrow', hdata ▸ hv, rfl⟩, ?_, hp.eligible⟩
    rw [hdata]
    exact hp.file
  · exact absurd hg (hkept keep hdb)

/-! ## Rows -/

/-- Every stored draft is in a file of its snapshot, on lines that are there unless it is on the
whole file. -/
def DraftsPlaced (hashes : Hashes) (db : Db) : Prop :=
  ∀ x row, db.drafts.find x = some row → ∃ s f, PlacedIn hashes db row.data s f

/-- A place only depends on where the draft is. -/
theorem PlacedIn.of_place {d d' : Draft} {s : Snapshot} {f : FileChange} (h : PlacedIn hashes db d s f)
    (hp : SamePlace d d') (hl : d.fileLevel = d'.fileLevel) : PlacedIn hashes db d' s f := by
  obtain ⟨hsnap, hfile, hside, hstart, hline⟩ := hp
  refine ⟨hsnap ▸ h.read, hfile ▸ h.file, ?_⟩
  rw [← hl, ← hside, ← hstart, ← hline]
  exact h.eligible

theorem publishedBy_place (cs : List PreparedComment) (x : DraftId) (row : DraftRow) :
    SamePlace row.data (publishedBy cs x row).data ∧
      row.data.fileLevel = (publishedBy cs x row).data.fileLevel ∧
      row.data.version = (publishedBy cs x row).data.version ∧
      row.data.body = (publishedBy cs x row).data.body := by
  unfold publishedBy
  split
  · exact ⟨⟨rfl, rfl, rfl, rfl, rfl⟩, rfl, rfl, rfl⟩
  · exact ⟨⟨rfl, rfl, rfl, rfl, rfl⟩, rfl, rfl, rfl⟩

theorem DraftsPlaced.step (h : Wrote hashes db op db') (hop : LeavesPatches op)
    (hd : DraftsInStep db) (hp : DraftsPlaced hashes db) : DraftsPlaced hashes db' := by
  intro x row' hrow'
  have hin := hd.step h x row' hrow'
  -- A row that outlives a pruning has its snapshot.
  have hkept : ∀ keep, db' = Store.prune db keep → ¬ Gone db keep row'.data.snapshot := by
    rintro keep rfl
    rw [prune_draft] at hrow'
    rw [← hin.snapshot]
    exact of_decide_eq_true (Option.filter_eq_some_iff.mp hrow').2
  have hstep := h.draft hd.keyed x
  rw [hrow'] at hstep
  generalize hbefore : db.drafts.find x = before at hstep
  cases hstep with
  | same =>
    obtain ⟨s, f, hplaced⟩ := hp x row' hbefore
    obtain ⟨s', hplaced'⟩ := hplaced.step h hop hkept
    exact ⟨s', f, hplaced'⟩
  | saved hop' hid hs =>
    obtain ⟨s, f, hplaced⟩ := hs.placed
    rw [savedRow_data] at hkept ⊢
    obtain ⟨s', hplaced'⟩ := hplaced.step h hop hkept
    exact ⟨s', f, hplaced'.of_place ⟨rfl, rfl, rfl, rfl, rfl⟩ rfl⟩
  | published hm hst =>
    rename_i row e orow
    obtain ⟨hplace, hlevel, -⟩ := publishedBy_place e.prepared.comments x row
    obtain ⟨s, f, hplaced⟩ := hp x row hbefore
    obtain ⟨s', hplaced'⟩ := (hplaced.of_place hplace hlevel).step h hop hkept
    exact ⟨s', f, hplaced'⟩

/-! ## One row over a run -/

/-- The row `row'` is what became of `row`. -/
structure Continues (row row' : DraftRow) : Prop where
  place : SamePlace row.data row'.data
  fileLevel : row.data.fileLevel = row'.data.fileLevel
  version : row.data.version ≤ row'.data.version
  body : row.data.version = row'.data.version → row.data.body = row'.data.body

theorem Continues.refl (row : DraftRow) : Continues row row :=
  ⟨⟨rfl, rfl, rfl, rfl, rfl⟩, rfl, le_rfl, fun _ => rfl⟩

theorem SamePlace.trans {a b c : Draft} (h : SamePlace a b) (h' : SamePlace b c) : SamePlace a c :=
  ⟨h.snapshot.trans h'.snapshot, h.file.trans h'.file, h.side.trans h'.side,
    h.startLine.trans h'.startLine, h.line.trans h'.line⟩

theorem Continues.trans {a b c : DraftRow} (h : Continues a b) (h' : Continues b c) :
    Continues a c := by
  refine ⟨h.place.trans h'.place, h.fileLevel.trans h'.fileLevel, h.version.trans h'.version, ?_⟩
  intro heq
  have hab : a.data.version = b.data.version := by
    have := h.version
    have := h'.version
    omega
  exact (h.body hab).trans (h'.body (hab.symm.trans heq))

theorem Wrote.continues (h : Wrote hashes db op db') (hl : KeepsLevel db op) (hd : DraftsInStep db)
    {row row' : DraftRow} (hrow : db.drafts.find x = some row)
    (hrow' : db'.drafts.find x = some row') : Continues row row' := by
  have hstep := h.draft hd.keyed x
  rw [hrow, hrow'] at hstep
  generalize hsome : some row = before at hstep
  cases hstep with
  | same =>
    cases hsome
    exact .refl row
  | saved hop hid hs =>
    rename_i d
    subst hsome hop hid
    have hover := hs.earlier row hrow
    have hlevel := hl d row rfl hrow hover.place
    obtain ⟨hsnap, hfile, hside, hstart, hline⟩ := hover.place
    exact ⟨⟨hsnap, hfile, hside, hstart, hline⟩, hlevel, hover.version, hover.body⟩
  | published hm hst =>
    cases hsome
    rename_i e orow
    obtain ⟨hplace, hlevel, hversion, hbody⟩ := publishedBy_place e.prepared.comments x row
    exact ⟨hplace, hlevel, hversion.le, fun _ => hbody⟩

/-- **A stored draft keeps its identity** over every run in which no save of a stored draft carries
another `file_level` than the row, for as long as its row is there. -/
theorem run_keeps_draft_identity {db₀ : Db} {ops ops' : List StoreOp} {row : DraftRow}
    (hstart : db₀.drafts = ∅)
    (hbefore : (Store.system hashes).Steps (fun db op => LeavesPatches op ∧ KeepsLevel db op)
      db₀ ops db)
    (hrun : (Store.system hashes).Steps (fun db op =>
      (LeavesPatches op ∧ KeepsLevel db op) ∧ KeepsRow hashes x db op) db ops' db')
    (hrow : db.drafts.find x = some row) :
    ∃ row', db'.drafts.find x = some row' ∧ Continues row row' ∧
      ∃ s f, PlacedIn hashes db' row'.data s f := by
  have hfirst : DraftsInStep db ∧ DraftsPlaced hashes db := by
    refine Wrote.invariant (P := fun db => DraftsInStep db ∧ DraftsPlaced hashes db) ?_ hbefore
      ⟨?_, ?_⟩
    · intro db op db' hok hw hdb
      exact ⟨hdb.1.step hw, hdb.2.step hw hok.1 hdb.1⟩
    all_goals
      intro x row hnone
      rw [hstart] at hnone
      cases hnone
  have hlast : (∃ row', db'.drafts.find x = some row' ∧ Continues row row') ∧
      DraftsInStep db' ∧ DraftsPlaced hashes db' := by
    refine Lts.Steps.invariant (P := fun db => (∃ row', db.drafts.find x = some row' ∧
      Continues row row') ∧ DraftsInStep db ∧ DraftsPlaced hashes db) ?_ hrun
      ⟨⟨row, hrow, .refl row⟩, hfirst⟩
    rintro db op db' ⟨hok, hkept⟩ hs ⟨⟨row₁, hrow₁, hcont⟩, hin, hplaced⟩
    have hw := wrote_of_step hs
    have hdb' : Store.after hashes db op = db' := Option.some.inj hs
    obtain ⟨row₂, hrow₂⟩ := Option.isSome_iff_exists.mp hkept
    rw [hdb'] at hrow₂
    exact ⟨⟨row₂, hrow₂, hcont.trans (hw.continues hok.2 hin hrow₁ hrow₂)⟩, hin.step hw,
      hplaced.step hw hok.1 hin⟩
  obtain ⟨⟨row', hrow', hcont⟩, -, hplaced⟩ := hlast
  exact ⟨row', hrow', hcont, hplaced x row' hrow'⟩

/-! ### A draft that is saved again -/

/-- A store with one snapshot in it. -/
def sampleStore : Db :=
  { Db.empty with snapshots := Table.put ∅ sampleSnapshot.id ⟨sampleSnapshot, 0, 1⟩ }

/-- The checks of a save for a draft on the snapshot of `sampleStore`. -/
def savesSample (old : Option DraftRow) (d : Draft) : Bool :=
  decide (0 < d.version) && decide (d.version ≤ Store.i64Max) &&
    decide ((asBytes d.body).length ≤ 1024 * 1024) && decide (d.snapshot = sampleSnapshot.id) &&
    decide (d.file = sampleFile.id) &&
    (d.fileLevel || sampleFile.eligible d.side d.startLine d.line) && !d.published &&
    old.all fun row => (Store.saveOver row.data d).isOk

/-- The store with the row of a save. -/
def withSaved (db : Db) (d : Draft) : Db :=
  { db with drafts := db.drafts.put d.id (Store.savedRow (db.drafts.find d.id) d) }

/-- The sample snapshot is in the store. -/
def HasSample (db : Db) : Prop :=
  ∃ row, db.snapshots.find sampleSnapshot.id = some row ∧ row.data = sampleSnapshot

theorem saveDraft_sample {d : Draft} (hdb : HasSample db)
    (h : savesSample (db.drafts.find d.id) d) :
    Store.saveDraft sampleHashes db d = .ok (withSaved db d) := by
  simp only [savesSample, Bool.and_eq_true, decide_eq_true_eq, Bool.or_eq_true,
    Bool.not_eq_true'] at h
  obtain ⟨⟨⟨⟨⟨⟨⟨hv, hmax⟩, hbody⟩, hs⟩, hf⟩, hline⟩, hpub⟩, hover⟩ := h
  obtain ⟨srow, hsrow, hdata⟩ := hdb
  have hverified : srow.data.verifyIdentity sampleHashes := by
    rw [hdata]
    exact sampleSnapshot_verified
  have hplaced : ∃ s, PlacedIn sampleHashes db d s sampleFile := by
    refine ⟨_, snapshot_ok_iff.mpr ⟨srow, hs ▸ hsrow, hverified, rfl⟩, ?_, ?_⟩
    · rw [hdata, hf]
      rfl
    · intro hlevel
      simpa [hlevel] using hline
  obtain ⟨s, hplaced⟩ := hplaced
  refine saveDraft_of_checks hv ⟨hmax, hbody⟩ hplaced hpub ?_
  intro row hrow
  rw [hrow] at hover
  have hok : (Store.saveOver row.data d).isOk := hover
  cases hcase : Store.saveOver row.data d with
  | ok u => rfl
  | error e =>
    rw [hcase] at hok
    cases hok

theorem after_sample (db : Db) (d : Draft) (hdb : HasSample db)
    (h : savesSample (db.drafts.find d.id) d) :
    Store.after sampleHashes db (.saveDraft d) = withSaved db d := by
  rw [Store.after, show Store.apply sampleHashes db (.saveDraft d) = _ from saveDraft_sample hdb h]

/-- The sample draft with another text, which is its next version. -/
def editedDraft : Draft := { sampleDraft with body := "note d1, again", version := 3 }

/-- The edited draft as a comment on the whole file. -/
def wholeFileDraft : Draft := { editedDraft with fileLevel := true }

theorem edited_draft_keeps_identity :
    ∃ row', (withSaved (withSaved sampleStore sampleDraft) editedDraft).drafts.find sampleDraft.id =
        some row' ∧
      Continues (Store.savedRow none sampleDraft) row' ∧ row'.data.version = 3 := by
  have hfirst := after_sample sampleStore sampleDraft ⟨_, rfl, rfl⟩ (by decide)
  have hsecond := after_sample (withSaved sampleStore sampleDraft) editedDraft ⟨_, rfl, rfl⟩
    (by decide)
  have hleaves : ∀ d, LeavesPatches (.saveDraft d) := by
    intro d s now h
    cases h
  have hbefore : (Store.system sampleHashes).Steps (fun db op => LeavesPatches op ∧ KeepsLevel db op)
      sampleStore [.saveDraft sampleDraft] (withSaved sampleStore sampleDraft) := by
    refine .cons ⟨hleaves _, ?_⟩ (congrArg some hfirst) .nil
    intro d row hop hrow
    cases hop
    cases hrow
  have hrun : (Store.system sampleHashes).Steps (fun db op => (LeavesPatches op ∧ KeepsLevel db op) ∧
      KeepsRow sampleHashes sampleDraft.id db op) (withSaved sampleStore sampleDraft)
      [.saveDraft editedDraft] (withSaved (withSaved sampleStore sampleDraft) editedDraft) := by
    refine .cons ⟨⟨hleaves _, ?_⟩, ?_⟩ (congrArg some hsecond) .nil
    · intro d row hop hrow _
      cases hop
      cases hrow
      rfl
    · unfold KeepsRow
      rw [hsecond]
      rfl
  obtain ⟨row', hrow', hcont, -⟩ := run_keeps_draft_identity (x := sampleDraft.id) rfl hbefore hrun
    rfl
  have hversion : row'.data.version = 3 := by
    cases hrow'
    rfl
  exact ⟨row', hrow', hcont, hversion⟩

/-- **A save can turn a comment on lines into one on the whole file.** -/
theorem resave_changes_level : ∃ db db' row row',
    (Store.system sampleHashes).Steps (fun _ _ => True) sampleStore [.saveDraft sampleDraft] db ∧
    (Store.system sampleHashes).Steps (fun db op => KeepsRow sampleHashes sampleDraft.id db op) db
      [.saveDraft wholeFileDraft] db' ∧
    db.drafts.find sampleDraft.id = some row ∧ db'.drafts.find sampleDraft.id = some row' ∧
    row.data.fileLevel = false ∧ row'.data.fileLevel = true := by
  have hfirst := after_sample sampleStore sampleDraft ⟨_, rfl, rfl⟩ (by decide)
  have hsecond := after_sample (withSaved sampleStore sampleDraft) wholeFileDraft ⟨_, rfl, rfl⟩
    (by decide)
  refine ⟨_, _, _, _, .cons trivial (congrArg some hfirst) .nil,
    .cons ?_ (congrArg some hsecond) .nil, rfl, rfl, rfl, rfl⟩
  unfold KeepsRow
  rw [hsecond]
  rfl

end Proof
end Diffz
