import Diffz.Proof.Outbox.Rows

/-!
# Drafts across one step

What saving, discarding, publishing and pruning do to the row of one draft. A row keeps its columns
in step with its data (`Synced`), and the text a version had once is the text of that version for
good, or the draft is gone and cannot come back (`Reached`).
-/

set_option autoImplicit false

namespace Diffz
namespace Proof

variable {hashes : Hashes} {services : Services} {w w' : World} {ev : Event} {db db' : Db}

/-! ## One draft -/

/-- **The ways the row of a draft goes on.** -/
inductive DraftStep (hashes : Hashes) (w : World) (ev : Event) (w' : World) (x : DraftId) :
    Option DraftRow → Option DraftRow → Prop
  | same {r : Option DraftRow} : DraftStep hashes w ev w' x r r
  | saved {d : Draft} {r : Option DraftRow} (hev : ev = .saveDraft d true) (hid : d.id = x)
      (hs : Store.saveDraft hashes w.db d = .ok w'.db)
      (hover : ∀ row, r = some row → SavesOver row.data d) :
      DraftStep hashes w ev w' x r (some (Store.savedRow r d))
  | discarded {row : DraftRow} (hpub : row.published = false) (hx : x ∈ w'.discarded) :
      DraftStep hashes w ev w' x (some row) none
  | published {row : DraftRow} {e : OutboxEntry} {orow : OutboxRow}
      (hm : Moved w.db e w'.db orow) (hst : e.state = .confirmed) :
      DraftStep hashes w ev w' x (some row) (some (publishedBy e.prepared.comments x row))
  | pruned {row : DraftRow} (hgone : w'.db.snapshots.find row.snapshotId = none) :
      DraftStep hashes w ev w' x (some row) none

theorem draftStep_of_moved {e : OutboxEntry} {orow : OutboxRow} (hk : Keyed w.db.drafts)
    (hm : Moved w.db e w'.db orow) (x : DraftId) :
    DraftStep hashes w ev w' x (w.db.drafts.find x) (w'.db.drafts.find x) := by
  rw [hm.drafts]
  split
  · rename_i hst
    rw [publishDrafts_find hk]
    cases hx : w.db.drafts.find x with
    | none => exact .same
    | some row => exact .published hm hst
  · exact .same

theorem prune_drafts_find (db : Db) (keep : Nat) (x : DraftId) :
    (Store.prune db keep).drafts.find x = db.drafts.find x ∨
      ∃ row, db.drafts.find x = some row ∧ (Store.prune db keep).drafts.find x = none ∧
        (Store.prune db keep).snapshots.find row.snapshotId = none := by
  unfold Store.prune
  dsimp only
  rw [Table.find_restrict]
  cases hx : db.drafts.find x with
  | none => exact .inl rfl
  | some row =>
    by_cases hgone : row.snapshotId ∈ db.snapshots.keys.filter fun id => Store.doomed db keep id
    · refine .inr ⟨row, rfl, Option.filter_some_neg (by simpa using hgone), ?_⟩
      rw [Table.find_restrict]
      cases hs : db.snapshots.find row.snapshotId with
      | none => rfl
      | some srow => exact Option.filter_some_neg (by simpa using hgone)
    · exact .inl (Option.filter_some_pos (decide_eq_true hgone))

theorem Change.draft (h : Change hashes services w ev w') (hk : Keyed w.db.drafts) (x : DraftId) :
    DraftStep hashes w ev w' x (w.db.drafts.find x) (w'.db.drafts.find x) := by
  cases h with
  | saved hs =>
    rename_i d db
    obtain ⟨-, -, -, -, hover, rfl⟩ := saveDraft_ok hs
    dsimp only
    rw [Table.find_put]
    split
    · rename_i hid
      subst hid
      exact .saved rfl rfl hs hover
    · exact .same
  | discarded hd =>
    obtain ⟨row, hrow, -, hpub, rfl⟩ := discardDraft_ok hd
    dsimp only
    rw [Table.find_erase]
    split
    · rename_i hid
      subst hid
      rw [hrow]
      exact .discarded hpub List.mem_cons_self
    · exact .same
  | inserted hi =>
    obtain ⟨-, -, rfl⟩ := insertPrepared_ok hi
    exact .same
  | moved hm => exact draftStep_of_moved hk hm x
  | marked ht hm => exact draftStep_of_moved hk hm x
  | ended ht hpos hm => exact draftStep_of_moved hk hm x
  | confirmed ht hm => exact draftStep_of_moved hk hm x
  | recovered hp hm => exact draftStep_of_moved hk hm x
  | pruned =>
    rcases prune_drafts_find w.db Store.keepRecent x with hsame | ⟨row, hrow, hnone, hgone⟩
    · dsimp only
      rw [hsame]
      exact .same
    · dsimp only
      rw [hrow, hnone]
      exact .pruned hgone
  | _ => exact .same

/-- Snapshots are not added and do not change. -/
theorem Change.snapshot (h : Change hashes services w ev w') {id : SnapshotId} {row' : SnapshotRow}
    (hrow' : w'.db.snapshots.find id = some row') :
    ∃ row, w.db.snapshots.find id = some row ∧ row.data = row'.data := by
  cases h with
  | saved hs =>
    obtain ⟨-, -, -, -, -, rfl⟩ := saveDraft_ok hs
    exact ⟨row', hrow', rfl⟩
  | discarded hd =>
    obtain ⟨-, -, -, -, rfl⟩ := discardDraft_ok hd
    exact ⟨row', hrow', rfl⟩
  | shown =>
    dsimp only [Store.showRecent, Store.touch] at hrow'
    rw [Table.find_modify] at hrow'
    split at hrow'
    · obtain ⟨row, hrow, rfl⟩ := Option.map_eq_some_iff.mp hrow'
      exact ⟨row, hrow, rfl⟩
    · exact ⟨row', hrow', rfl⟩
  | inserted hi =>
    obtain ⟨-, -, rfl⟩ := insertPrepared_ok hi
    exact ⟨row', hrow', rfl⟩
  | moved hm => exact ⟨row', hm.snapshots ▸ hrow', rfl⟩
  | marked ht hm => exact ⟨row', hm.snapshots ▸ hrow', rfl⟩
  | ended ht hpos hm => exact ⟨row', hm.snapshots ▸ hrow', rfl⟩
  | confirmed ht hm => exact ⟨row', hm.snapshots ▸ hrow', rfl⟩
  | recovered hp hm => exact ⟨row', hm.snapshots ▸ hrow', rfl⟩
  | pruned =>
    dsimp only [Store.prune] at hrow'
    rw [Table.find_restrict] at hrow'
    exact ⟨row', (Option.filter_eq_some_iff.mp hrow').1, rfl⟩
  | _ => exact ⟨row', hrow', rfl⟩

theorem Change.snapshot_gone (h : Change hashes services w ev w') {id : SnapshotId}
    (hgone : w.db.snapshots.find id = none) : w'.db.snapshots.find id = none := by
  cases hrow : w'.db.snapshots.find id with
  | none => rfl
  | some row' =>
    obtain ⟨row, hbefore, -⟩ := h.snapshot hrow
    rw [hgone] at hbefore
    cases hbefore

theorem Change.discarded_kept (h : Change hashes services w ev w') {x : DraftId}
    (hx : x ∈ w.discarded) : x ∈ w'.discarded := by
  cases h with
  | discarded hd => exact List.mem_cons_of_mem _ hx
  | _ => exact hx

end Proof
end Diffz
