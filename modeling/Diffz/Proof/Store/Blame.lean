import Diffz.Proof.Fingerprint
import Diffz.Proof.Store.Identity

/-!
# Blame belongs to its release list

A blame range names a release by its index, so a range read for one release list must never be shown
with another. The rows of `snapshot_blame` stand under the digest of the list they were computed
from, and a read takes only the rows under the digest of the list it returns; a row that comes in
late, after a reload has changed the list, is under another digest.
-/

set_option autoImplicit false

namespace Diffz
namespace Proof

variable {hashes : Hashes} {db db' : Db} {op : StoreOp}

/-! ## The digest of a release list -/

theorem ofStr?_inj {a b : Option String} (h : Json.ofStr? a = Json.ofStr? b) : a = b := by
  cases a <;> cases b <;> simp_all [Json.ofStr?]

theorem releaseFile_toJson_inj {a b : ReleaseFile} (h : a.toJson = b.toJson) : a = b := by
  obtain ⟨_, _, _, x⟩ := a
  obtain ⟨_, _, _, y⟩ := b
  simp only [ReleaseFile.toJson, Json.obj.injEq, List.cons_append, List.nil_append,
    List.cons.injEq, Prod.mk.injEq, true_and, Json.str.injEq, Json.num.injEq, Int.natCast_inj] at h
  obtain ⟨rfl, rfl, rfl, hx⟩ := h
  obtain rfl : x = y := Option.map_injective (fun _ _ => Json.str.inj) (skipNone_inj hx)
  rfl

theorem skipEmpty_inj {α : Type} {toJson : α → Json} (hinj : Function.Injective toJson)
    {a b : List α} (h : skipEmpty toJson a = skipEmpty toJson b) : a = b := by
  cases a with
  | nil =>
    cases b with
    | nil => rfl
    | cons y b => cases h
  | cons x a =>
    cases b with
    | nil => cases h
    | cons y b => exact List.map_injective_iff.mpr hinj (Json.arr.inj (Option.some.inj h))

theorem release_toJson_inj {a b : Release} (h : a.toJson = b.toJson) : a = b := by
  obtain ⟨_, _, _, _, _, _, _, _⟩ := a
  obtain ⟨_, _, _, _, _, _, _, _⟩ := b
  simp only [Release.toJson, Json.obj.injEq, List.cons_append, List.nil_append,
    List.cons.injEq, Prod.mk.injEq, true_and, Json.str.injEq, Json.num.injEq, Int.natCast_inj,
    Json.arr.injEq] at h
  obtain ⟨htag, rfl, hdate, rfl, hfiles, hnotes, hurl, hshas⟩ := h
  cases ofStr?_inj htag
  cases ofStr?_inj hdate
  cases ofStr?_inj hnotes
  cases ofStr?_inj hurl
  cases List.map_injective_iff.mpr (fun _ _ => releaseFile_toJson_inj) hfiles
  cases skipEmpty_inj (fun _ _ => Json.str.inj) (skipNone_inj hshas)
  rfl

/-- What `releases_key` hashes. -/
def releasesInput (releases : List Release) : Bytes :=
  framed [asBytes "releases-v1", Json.toVec (.arr (releases.map Release.toJson))]

theorem releasesInput_injective : Function.Injective releasesInput := by
  intro a b h
  have hjson := Json.arr.inj (Json.toVec_injective (framed_pair_inj h))
  exact List.map_injective_iff.mpr (fun _ _ => release_toJson_inj) hjson

theorem releasesKey_inj {lists : Set (List Release)}
    (hc : CollisionFree hashes.sha256 (Set.image releasesInput lists)) {a b : List Release} (ha : a ∈ lists)
    (hb : b ∈ lists) (h : releasesKey hashes.sha256 a = releasesKey hashes.sha256 b) : a = b :=
  releasesInput_injective (hc.digest (Set.mem_image_of_mem _ ha) (Set.mem_image_of_mem _ hb) h)

/-! ## What the callers store -/

section

-- `computed releases path ranges`: these are the ranges a blame of `path` gives for the releases.
variable {computed : List Release → String → List Blamed → Prop} {lists : Set (List Release)}

/-- Every range of the blame was computed from the list. -/
def ComputedFrom (computed : List Release → String → List Blamed → Prop) (releases : List Release)
    (b : BlameRead) : Prop :=
  ∀ path ranges, (path, some ranges) ∈ b.entries → computed releases path ranges

/-- A snapshot is stored with blame of its own releases, and blame is saved under the key of the list
it was computed from; when that happens is left open. -/
def Attributed (hashes : Hashes) (computed : List Release → String → List Blamed → Prop)
    (lists : Set (List Release)) : StoreOp → Prop
  | .putSnapshot s _ =>
    s.overview.releases ∈ lists ∧ ComputedFrom computed s.overview.releases s.overview.blame
  | .saveBlame _ key found _ =>
    ∃ releases ∈ lists, key = releasesKey hashes.sha256 releases ∧
      ComputedFrom computed releases found
  | _ => True

/-! ## What the store has -/

/-- Blame that is stored was computed from the list it is stored with. -/
structure BlameSound (hashes : Hashes) (computed : List Release → String → List Blamed → Prop)
    (lists : Set (List Release)) (db : Db) : Prop where
  snapshots : ∀ id row, db.snapshots.find id = some row → row.data.overview.releases ∈ lists ∧
    ComputedFrom computed row.data.overview.releases row.data.overview.blame
  rows : ∀ k ranges, db.snapshotBlame.find k = some ranges → ∃ releases ∈ lists,
    k.releasesKey = releasesKey hashes.sha256 releases ∧ computed releases k.path ranges

theorem ComputedFrom.stored {releases : List Release} {b : BlameRead}
    (h : ComputedFrom computed releases b) : ComputedFrom computed releases b.stored :=
  fun path ranges hmem => h path ranges (List.mem_of_mem_filter hmem)

theorem BlameSound.step (h : Wrote hashes db op db') (hop : Attributed hashes computed lists op)
    (hb : BlameSound hashes computed lists db) : BlameSound hashes computed lists db' := by
  constructor
  · intro id row' hrow'
    rcases h.snapshot_row hrow' with ⟨row, hrow, hdata, -⟩ | ⟨s, now, rfl, -, hdata, -⟩
    · rw [← hdata]
      exact hb.snapshots id row hrow
    · rw [hdata]
      exact ⟨hop.1, hop.2.stored⟩
  · intro k ranges hrow'
    rcases h.blame_row hrow' with hold | ⟨key, found, now, rfl, hkey, hmem, -⟩
    · exact hb.rows k ranges hold
    · obtain ⟨releases, hin, rfl, hcomputed⟩ := hop
      exact ⟨releases, hin, hkey, hcomputed k.path ranges hmem⟩

/-! ## Reads -/

/-- An entry of the blame that is returned comes from the snapshot or from a row. -/
theorem mem_overlaid {s : Snapshot} {rows : List (String × List Blamed)} {path : String}
    {ranges : List Blamed} (h : (path, some ranges) ∈ (Store.overlaid s rows).overview.blame.entries) :
    (path, some ranges) ∈ s.overview.blame.entries ∨ (path, ranges) ∈ rows := by
  unfold Store.overlaid at h
  dsimp only at h
  generalize s.overview.blame = b at h ⊢
  induction rows generalizing b with
  | nil => exact .inl h
  | cons r rows ih =>
    rcases ih _ h with hb | hr
    · rcases OrdMap.mem_insert hb with heq | hb
      · cases heq
        exact .inr List.mem_cons_self
      · exact .inl hb
    · exact .inr (List.mem_cons_of_mem r hr)

theorem mem_blameRows {id : SnapshotId} {key path : String} {ranges : List Blamed}
    (h : (path, ranges) ∈ Store.blameRows db id key) :
    db.snapshotBlame.find ⟨id, path, key⟩ = some ranges := by
  obtain ⟨⟨k, r⟩, hmem, hr⟩ := List.mem_filterMap.mp h
  split at hr
  · rename_i hk
    cases hr
    obtain ⟨i, p, key'⟩ := k
    obtain ⟨rfl, rfl⟩ := hk
    exact Table.find_eq_some_iff.mpr hmem
  · cases hr

/-- **Blame never names a release of another list.** However late blame is saved and however often
the snapshot is stored again with other releases, every range that is read was computed from exactly
the releases it is read with. -/
theorem read_blame_of_own_releases
    (hc : CollisionFree hashes.sha256 (Set.image releasesInput lists)) {ops : List StoreOp}
    (hrun : (Store.system hashes).Steps (fun _ op => Attributed hashes computed lists op) .empty ops
      db) {id : SnapshotId} {s : Snapshot} (hread : Store.snapshot hashes db id = .ok s)
    {path : String} {ranges : List Blamed}
    (hmem : (path, some ranges) ∈ s.overview.blame.entries) :
    computed s.overview.releases path ranges := by
  have hb : BlameSound hashes computed lists db := by
    refine Wrote.invariant (fun hok hw hb => hb.step hw hok) hrun ⟨?_, ?_⟩
    · intro id row h
      cases h
    · intro k ranges h
      cases h
  obtain ⟨row, hrow, -, rfl⟩ := snapshot_ok_iff.mp hread
  obtain ⟨hin, hown⟩ := hb.snapshots id row hrow
  rcases mem_overlaid hmem with hmem | hmem
  · exact hown path ranges hmem
  · obtain ⟨releases, hin', hkey, hcomputed⟩ := hb.rows _ ranges (mem_blameRows hmem)
    have heq : row.data.overview.releases = releases := releasesKey_inj hc hin hin' hkey
    rw [← heq] at hcomputed
    exact hcomputed

end

/-! ### Blame that comes late -/

def sampleRelease (tag commit : String) : Release :=
  { tag := some tag, commit, date := none, commits := 1, files := [], notes := none, url := none
    shas := [commit] }

/-- The releases of a compare, and the same after a tag was moved. -/
def oldReleases : List Release := [sampleRelease "v1" "c1", sampleRelease "v2" "c2"]

def newReleases : List Release := [sampleRelease "v2" "c2"]

/-- The range stands under a release that has its commit. -/
def namesRelease (releases : List Release) (_path : String) (ranges : List Blamed) : Prop :=
  ∀ b ∈ ranges, ∃ r, releases[b.release]? = some r ∧ b.commit ∈ r.shas

def reloaded : Snapshot :=
  { sampleSnapshot with overview := { Overview.empty with releases := newReleases } }

def newKey : String := releasesKey sampleHashes.sha256 newReleases

def oldKey : String := releasesKey sampleHashes.sha256 oldReleases

/-- The blame of the file, first for the releases there are now, then one that was started before. -/
def lateOps : List StoreOp :=
  [.putSnapshot reloaded 1,
    .saveBlame reloaded.id newKey (.ofList [("x", some [⟨1, 1, 0, "c2"⟩])]) 2,
    .saveBlame reloaded.id oldKey (.ofList [("x", some [⟨1, 1, 1, "c2"⟩])]) 3]

theorem releaseLists_collisionFree : CollisionFree sampleHashes.sha256
    (Set.image releasesInput {oldReleases, newReleases}) := by
  apply collisionFree_of_nodup [releasesInput oldReleases, releasesInput newReleases]
  · rintro b ⟨l, rfl | rfl, rfl⟩
    · exact List.mem_cons_self
    · exact List.mem_cons_of_mem _ List.mem_cons_self
  · decide +kernel

/-- The store after the snapshot and the two saves, under their keys. -/
def lateDb (k k' : String) : Db :=
  { Db.empty with
    snapshots := Table.put ∅ reloaded.id ⟨reloaded, 3, 1⟩
    snapshotBlame := Table.put (Table.put ∅ ⟨reloaded.id, "x", k⟩ [⟨1, 1, 0, "c2"⟩])
      ⟨reloaded.id, "x", k'⟩ [⟨1, 1, 1, "c2"⟩] }

theorem lateDb_saved (k k' : String) :
    Store.after sampleHashes (Store.after sampleHashes
      { Db.empty with snapshots := Table.put ∅ reloaded.id ⟨reloaded, 1, 1⟩ }
      (.saveBlame reloaded.id k (.ofList [("x", some [⟨1, 1, 0, "c2"⟩])]) 2))
      (.saveBlame reloaded.id k' (.ofList [("x", some [⟨1, 1, 1, "c2"⟩])]) 3) =
    lateDb k k' := rfl

theorem lateDb_rows {k k' : String} (h : k' ≠ k) :
    Store.blameRows (lateDb k k') reloaded.id k = [("x", [⟨1, 1, 0, "c2"⟩])] := by
  simp [Store.blameRows, lateDb, Table.put, AList.insert, h]

theorem late_blame_not_shown : ∃ db s,
    (Store.system sampleHashes).Steps (fun _ op => Attributed sampleHashes namesRelease
      {oldReleases, newReleases} op) .empty lateOps db ∧
    Store.snapshot sampleHashes db reloaded.id = .ok s ∧
    s.overview.blame.entries = [("x", some [⟨1, 1, 0, "c2"⟩])] ∧
    namesRelease s.overview.releases "x" [⟨1, 1, 0, "c2"⟩] := by
  have hkeys : oldKey ≠ newKey := by
    intro h
    have hlists := releasesKey_inj releaseLists_collisionFree (.inl rfl) (.inr rfl) h
    exact absurd hlists (by decide)
  have hverified : reloaded.verifyIdentity sampleHashes := sampleSnapshot_verified
  have hput : Store.after sampleHashes .empty (.putSnapshot reloaded 1) =
      { Db.empty with snapshots := Table.put ∅ reloaded.id ⟨reloaded, 1, 1⟩ } := by
    rw [Store.after, Store.apply, Store.putSnapshot, if_neg (not_not.mpr hverified)]
    rfl
  have hrun : (Store.system sampleHashes).Steps (fun _ op => Attributed sampleHashes namesRelease
      {oldReleases, newReleases} op) .empty lateOps (lateDb newKey oldKey) := by
    refine .cons ⟨.inr rfl, ?_⟩ (congrArg some hput) (.cons ⟨newReleases, .inr rfl, rfl, ?_⟩ rfl
      (.cons ⟨oldReleases, .inl rfl, rfl, ?_⟩ (congrArg some (lateDb_saved ..)) .nil))
    · intro path ranges hmem
      cases hmem
    · intro path ranges hmem
      cases List.mem_singleton.mp hmem
      intro b hb
      cases List.mem_singleton.mp hb
      exact ⟨_, rfl, List.mem_singleton.mpr rfl⟩
    · intro path ranges hmem
      cases List.mem_singleton.mp hmem
      intro b hb
      cases List.mem_singleton.mp hb
      exact ⟨_, rfl, List.mem_singleton.mpr rfl⟩
  have hread : Store.snapshot sampleHashes (lateDb newKey oldKey) reloaded.id =
      .ok (Store.overlaid reloaded (Store.blameRows (lateDb newKey oldKey) reloaded.id newKey)) :=
    snapshot_ok_iff.mpr ⟨⟨reloaded, 3, 1⟩, rfl, hverified, rfl⟩
  have hentries : (Store.overlaid reloaded (Store.blameRows (lateDb newKey oldKey) reloaded.id
      newKey)).overview.blame.entries = [("x", some [⟨1, 1, 0, "c2"⟩])] := by
    rw [lateDb_rows hkeys]
    rfl
  refine ⟨_, _, hrun, hread, hentries, ?_⟩
  refine read_blame_of_own_releases releaseLists_collisionFree hrun hread ?_
  rw [hentries]
  exact List.mem_cons_self

end Proof
end Diffz
