import Diffz.Proof.Store.Identity

/-!
# Pruning loses nothing that is still needed

`prune` reads the `published` column and the state column of the outbox, not the JSON, and it takes
the first rows of a sorted list. In a reachable store the columns say what the JSON says, and a
snapshot with fewer than `keep` newer ones is among those first rows.
-/

set_option autoImplicit false

namespace Diffz
namespace Proof

variable {hashes : Hashes} {db : Db} {keep : Nat} {id : SnapshotId}

/-! ## The most recent rows -/

/-- An element that fewer than `k` others stand before is among the first `k` of the sorted list. -/
theorem mem_take_mergeSort {α : Type} {le : α → α → Bool} {p : α → Bool} {l : List α} {x : α}
    {k : Nat} (htrans : ∀ a b c, le a b → le b c → le a c) (htotal : ∀ a b, le a b || le b a)
    (hx : x ∈ l) (hnodup : l.Nodup) (hbefore : ∀ y ∈ l, y ≠ x → le y x → p y)
    (hfew : (l.filter p).length < k) : x ∈ (l.mergeSort le).take k := by
  have hsorted := List.pairwise_mergeSort htrans htotal l
  have hperm := List.mergeSort_perm l le
  obtain ⟨a, b, hab⟩ := List.append_of_mem (hperm.mem_iff.mpr hx)
  rw [hab] at hsorted hperm ⊢
  have hall : ∀ y ∈ a, p y := by
    intro y hy
    have hne : y ≠ x := by
      rintro rfl
      have hnd := List.nodup_append.mp (hperm.nodup_iff.mpr hnodup)
      exact hnd.2.2 y hy y List.mem_cons_self rfl
    refine hbefore y (hperm.mem_iff.mp (List.mem_append_left _ hy)) hne ?_
    exact (List.pairwise_append.mp hsorted).2.2 y hy x List.mem_cons_self
  have hlen : a.length ≤ (l.filter p).length :=
    calc a.length = (a.filter p).length := by rw [List.filter_eq_self.mpr hall]
      _ ≤ ((a ++ x :: b).filter p).length := by
        rw [List.filter_append, List.length_append]
        exact Nat.le_add_right ..
      _ = (l.filter p).length := (hperm.filter p).length_eq
  rw [List.take_append]
  refine List.mem_append_right _ ?_
  obtain ⟨n, hn⟩ := Nat.exists_eq_succ_of_ne_zero (Nat.sub_ne_zero_of_lt (hlen.trans_lt hfew))
  rw [hn]
  exact List.mem_cons_self

/-- `r` was updated after `row`; of rows updated in one second the one inserted later counts. -/
def newerThan (row r : SnapshotRow) : Bool :=
  row.updatedAt < r.updatedAt || (row.updatedAt = r.updatedAt && row.rowid < r.rowid)

theorem recent_of_few_newer (hd : RowidsDistinct db) {row : SnapshotRow}
    (hrow : db.snapshots.find id = some row)
    (hfew : (db.snapshots.rows.filter (newerThan row)).length < keep) :
    id ∈ Store.recentIds db keep := by
  unfold Store.recentIds
  dsimp only
  refine List.mem_map.mpr ⟨(id, row), ?_, rfl⟩
  have hentries : ∀ e ∈ db.snapshots.entries.map (fun e => (e.1, e.2)),
      db.snapshots.find e.1 = some e.2 := by
    intro e he
    obtain ⟨⟨k, r⟩, hk, rfl⟩ := List.mem_map.mp he
    exact Table.find_eq_some_iff.mpr hk
  refine mem_take_mergeSort (p := fun e => newerThan row e.2) ?_ ?_ ?_ ?_ ?_ ?_
  · intro a b c hab hbc
    simp only [Bool.or_eq_true, Bool.and_eq_true, decide_eq_true_eq] at hab hbc ⊢
    omega
  · intro a b
    simp only [Bool.or_eq_true, Bool.and_eq_true, decide_eq_true_eq]
    omega
  · exact List.mem_map.mpr ⟨⟨id, row⟩, Table.find_eq_some_iff.mp hrow, rfl⟩
  · refine List.Nodup.map ?_ ?_
    · rintro ⟨k, r⟩ ⟨k', r'⟩ h
      cases h
      rfl
    · exact List.NodupKeys.nodup db.snapshots.nodupKeys
  · intro e he hne hle
    have hrowid : e.2.rowid ≠ row.rowid := by
      intro heq
      have hid := hd e.1 id e.2 row (hentries e he) hrow heq
      have hfound := hentries e he
      rw [hid, hrow] at hfound
      exact hne (Prod.ext hid (Option.some.inj hfound).symm)
    simp only [newerThan, Bool.or_eq_true, Bool.and_eq_true, decide_eq_true_eq] at hle ⊢
    omega
  · rw [Table.rows, List.filter_map, List.length_map] at hfew
    rw [List.filter_map, List.length_map]
    exact hfew

/-! ## A small store -/

theorem recent_of_few (h : db.snapshots.keys.length ≤ keep) (hid : id ∈ db.snapshots.keys) :
    id ∈ Store.recentIds db keep := by
  have hlen : db.snapshots.entries.length ≤ keep := by
    simpa [AList.keys, List.keys] using h
  obtain ⟨e, he, rfl⟩ := List.mem_map.mp hid
  unfold Store.recentIds
  dsimp only
  rw [List.take_of_length_le (by rwa [List.length_mergeSort, List.length_map])]
  exact List.mem_map.mpr ⟨(e.1, e.2), List.mem_mergeSort.mpr (List.mem_map.mpr ⟨e, he, rfl⟩), rfl⟩

/-- Nothing is pruned before there are more than `keep` snapshots. -/
theorem prune_few (h : db.snapshots.keys.length ≤ keep) : Store.prune db keep = db := by
  have hgone : db.snapshots.keys.filter (fun id => Store.doomed db keep id) = [] := by
    refine List.filter_eq_nil_iff.mpr ?_
    intro id hid
    simp [Store.doomed, recent_of_few h hid]
  unfold Store.prune
  rw [hgone]
  dsimp only
  rw [Table.restrict_eq_self, Table.restrict_eq_self, Table.restrict_eq_self,
    Table.restrict_eq_self, Table.restrict_eq_self] <;> simp

/-! ## What is needed -/

/-- **The snapshots that must not be lost**: the `keep` most recently updated, those with a draft
that is not published, and those of an operation without a final outcome. -/
inductive Needed (db : Db) (keep : Nat) (id : SnapshotId) : Prop
  | recent {row : SnapshotRow} (hrow : db.snapshots.find id = some row)
      (hfew : (db.snapshots.rows.filter (newerThan row)).length < keep)
  | unpublished {x : DraftId} {row : DraftRow} (hrow : db.drafts.find x = some row)
      (hid : row.data.snapshot = id) (hpub : row.data.published = false)
  | pending {o : OperationId} {row : OutboxRow} (hrow : db.outbox.find o = some row)
      (hid : row.data.prepared.snapshot = id)
      (hst : row.data.state = .prepared ∨ row.data.state = .inFlight ∨
        row.data.state = .unknownOutcome)

theorem Needed.not_gone (hs : StoreSound db) (h : Needed db keep id) : ¬ Gone db keep id := by
  intro hgone
  have hdoomed : Store.doomed db keep id = true := List.of_mem_filter hgone
  simp only [Store.doomed, Bool.and_eq_true, Bool.not_eq_true', decide_eq_true_eq,
    List.any_eq_false] at hdoomed
  obtain ⟨⟨hold, hdrafts⟩, houtbox⟩ := hdoomed
  cases h with
  | recent hrow hfew => exact hold (recent_of_few_newer hs.rowids hrow hfew)
  | unpublished hrow hid hpub =>
    have hin := hs.drafts _ _ hrow
    refine hdrafts _ (Table.mem_rows_iff.mpr ⟨_, hrow⟩) ?_
    simp [hin.snapshot, hin.published, hid, hpub]
  | pending hrow hid hst =>
    refine houtbox _ (Table.mem_rows_iff.mpr ⟨_, hrow⟩) ?_
    simp [Store.pending, hs.outbox _ _ hrow, hid, hst, or_assoc]

theorem prune_drafts_of_not_gone (hg : ¬ Gone db keep id) :
    Store.drafts (Store.prune db keep) id = Store.drafts db id := by
  unfold Store.drafts Store.prune Table.rows Table.restrict
  dsimp only
  rw [List.filter_map, List.filter_map, List.filter_filter]
  congr 2
  refine List.filter_congr ?_
  intro e he
  by_cases hid : e.2.snapshotId = id
  · have hkept : e.2.snapshotId ∉ db.snapshots.keys.filter fun id => Store.doomed db keep id := by
      rw [hid]
      exact hg
    simp only [Function.comp_apply, hid, decide_true, Bool.true_and]
    rw [← hid]
    exact decide_eq_true hkept
  · simp [hid]

theorem prune_view_of_not_gone (hg : ¬ Gone db keep id) :
    (Store.prune db keep).views.find id = db.views.find id := by
  unfold Store.prune
  dsimp only
  rw [Table.find_restrict]
  cases db.views.find id with
  | none => rfl
  | some row => exact Option.filter_some_pos (by exact decide_eq_true hg)

/-- **Pruning loses nothing that is still needed**, in every store that was reached. -/
theorem prune_keeps_needed {ops : List StoreOp}
    (hrun : (Store.system hashes).Steps (fun _ _ => True) .empty ops db) (keep : Nat) :
    (∀ id row, db.snapshots.find id = some row → Needed db keep id →
      (Store.prune db keep).snapshots.find id = some row ∧
      Store.drafts (Store.prune db keep) id = Store.drafts db id ∧
      (Store.prune db keep).views.find id = db.views.find id) ∧
    Referenced (Store.prune db keep) ∧
    ∀ x row, db.drafts.find x = some row → row.published = row.data.published := by
  have hs := StoreSound.run hrun
  refine ⟨?_, hs.references.prune keep, fun x row hrow => (hs.drafts x row hrow).published⟩
  intro id row hrow hneeded
  have hg := hneeded.not_gone hs
  refine ⟨?_, prune_drafts_of_not_gone hg, prune_view_of_not_gone hg⟩
  rw [prune_snapshots_find, if_neg hg]
  exact hrow

/-- A review with a draft that is not published. -/
def draftedOps : List StoreOp := [.putSnapshot sampleSnapshot 5, .saveDraft sampleDraft]

theorem putSnapshot_sample : Store.after sampleHashes .empty (.putSnapshot sampleSnapshot 5) =
    { Db.empty with snapshots := Table.put ∅ sampleSnapshot.id ⟨sampleSnapshot, 5, 1⟩ } := by
  rw [Store.after, Store.apply, Store.putSnapshot, if_neg (not_not.mpr sampleSnapshot_verified)]
  rfl

theorem draftedOps_prune_keeps_draft : ∃ db row,
    (Store.system sampleHashes).Steps (fun _ _ => True) .empty draftedOps db ∧
    Store.recentIds db 0 = [] ∧ db.snapshots.find sampleSnapshot.id = some row ∧
    (Store.prune db 0).snapshots.find sampleSnapshot.id = some row ∧
    Store.drafts (Store.prune db 0) sampleSnapshot.id = Store.drafts db sampleSnapshot.id := by
  have hsave := after_sample { Db.empty with
    snapshots := Table.put ∅ sampleSnapshot.id ⟨sampleSnapshot, 5, 1⟩ } sampleDraft ⟨_, rfl, rfl⟩
    (by decide)
  have hrun : (Store.system sampleHashes).Steps (fun _ _ => True) .empty draftedOps _ :=
    .cons trivial (congrArg some putSnapshot_sample) (.cons trivial (congrArg some hsave) .nil)
  obtain ⟨hkept, -⟩ := prune_keeps_needed hrun 0
  obtain ⟨hsnap, hdrafts, -⟩ := hkept sampleSnapshot.id ⟨sampleSnapshot, 5, 1⟩ rfl
    (.unpublished (x := sampleDraft.id) rfl rfl rfl)
  exact ⟨_, _, hrun, by rw [Store.recentIds, List.take_zero, List.map_nil], rfl, hsnap, hdrafts⟩

end Proof
end Diffz
