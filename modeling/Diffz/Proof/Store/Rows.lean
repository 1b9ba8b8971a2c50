import Mathlib.Data.List.MinMax
import Diffz.Proof.Store.Writes

/-!
# The rows of a reachable store

`Wrote` lists what an operation can do to the tables. From it come the three things every reachable
store has: the columns of a row agree with the JSON beside them, every row refers to a snapshot that
is there, and no two snapshots have one rowid.
-/

set_option autoImplicit false

namespace Diffz
namespace Proof

variable {hashes : Hashes} {db db' : Db} {op : StoreOp}

/-! ## One operation -/

/-- The snapshot is in the store. -/
def Present (db : Db) (id : SnapshotId) : Prop := (db.snapshots.find id).isSome

/-- **All that an operation does.** A failed one does nothing. -/
inductive Wrote (hashes : Hashes) (db : Db) : StoreOp → Db → Prop
  | idle {op : StoreOp} : Wrote hashes db op db
  | put {s : Snapshot} {now : Nat} {db' : Db} (hp : Store.putSnapshot hashes db s now = .ok db') :
      Wrote hashes db (.putSnapshot s now) db'
  | blamed {id : SnapshotId} {key : String} {found : BlameRead} {now : Nat}
      (href : ∀ e ∈ found.entries, e.2.isSome → Present db id) :
      Wrote hashes db (.saveBlame id key found now) (Store.touch { db with
        snapshotBlame := Store.writeBlame db.snapshotBlame id key found } id now)
  | shown {id : SnapshotId} {now : Nat} :
      Wrote hashes db (.showRecent id now) (Store.showRecent db id now)
  | hidden {id : Option SnapshotId} : Wrote hashes db (.hideRecent id) (Store.hideRecent db id)
  | pruned {keep : Nat} : Wrote hashes db (.prune keep) (Store.prune db keep)
  | saved {d : Draft} {db' : Db} (hs : SaveAccepted hashes db d db') :
      Wrote hashes db (.saveDraft d) db'
  | discarded {x : DraftId} {v : Nat} {row : DraftRow} (hrow : db.drafts.find x = some row)
      (hv : row.version = v) (hpub : row.published = false) :
      Wrote hashes db (.discardDraft x v) { db with drafts := db.drafts.erase x }
  | viewed {id : SnapshotId} {v : SavedView} {row : ViewRow}
      (href : Present db id ∨ (db.views.find id).isSome) :
      Wrote hashes db (.saveView id v) { db with views := db.views.put id row }
  | inserted {p : PreparedReview} {rules : ReviewRules} :
      Wrote hashes db (.insertPrepared p rules)
        { db with outbox := db.outbox.put p.id ⟨.prepared, newEntry p⟩ }
  | moved {op : StoreOp} {e : OutboxEntry} {row : OutboxRow} {db' : Db}
      (hop : (∃ rules, op = .transition e rules) ∨ ∃ id, op = .recover id)
      (hm : Moved db e db' row) : Wrote hashes db op db'

theorem wrote_of_saveView {id : SnapshotId} {v : SavedView} (h : Store.saveView db id v = .ok db') :
    Wrote hashes db (.saveView id v) db' := by
  unfold Store.saveView at h
  dsimp only at h
  split at h
  · rename_i old hold
    split at h <;> cases h
    · exact .viewed (.inr (by rw [hold]; rfl))
    · exact .idle
  · split at h
    · cases h
    · rename_i hs
      cases h
      exact .viewed (.inl (Option.isSome_iff_ne_none.mpr (by simpa using hs)))

theorem wrote_of_saveBlame {id : SnapshotId} {key : String} {found : BlameRead} {now : Nat}
    (h : Store.saveBlame db id key found now = .ok db') :
    Wrote hashes db (.saveBlame id key found now) db' := by
  unfold Store.saveBlame at h
  split at h
  · cases h
  rename_i hfk
  cases h
  refine .blamed ?_
  intro e he hsome
  by_contra habsent
  refine hfk ⟨by simpa [Present] using habsent, ?_⟩
  exact List.any_eq_true.mpr ⟨e, he, hsome⟩

theorem wrote_of_recover {id : OperationId} (h : Store.recover hashes db id = .ok db') :
    Wrote hashes db (.recover id) db' := by
  unfold Store.recover at h
  split at h
  · cases h
    exact .idle
  · split at h
    · obtain ⟨row, hm⟩ := writeTransition_ok h
      exact .moved (.inr ⟨id, rfl⟩) hm
    · cases h
      exact .idle

theorem wrote_of_apply (h : Store.apply hashes db op = .ok db') : Wrote hashes db op db' := by
  cases op with
  | putSnapshot s now => exact .put h
  | saveBlame id key found now => exact wrote_of_saveBlame h
  | showRecent id now =>
    cases h
    exact .shown
  | hideRecent id =>
    cases h
    exact .hidden
  | prune keep =>
    cases h
    exact .pruned
  | saveDraft d => exact .saved (saveDraft_ok h)
  | discardDraft x v =>
    obtain ⟨row, hrow, hv, hpub, rfl⟩ := discardDraft_ok h
    exact .discarded hrow hv hpub
  | saveView id v => exact wrote_of_saveView h
  | insertPrepared p rules =>
    obtain ⟨-, -, rfl⟩ := insertPrepared_ok h
    exact .inserted
  | transition e rules =>
    obtain ⟨row, hm⟩ := writeTransition_ok h
    exact .moved (.inl ⟨rules, rfl⟩) hm
  | recover id => exact wrote_of_recover h

theorem wrote_of_step (h : (Store.system hashes).step db op = some db') :
    Wrote hashes db op db' := by
  have h : Store.after hashes db op = db' := Option.some.inj h
  rw [← h, Store.after]
  split
  · rename_i hok
    exact wrote_of_apply hok
  · exact .idle

/-- What every operation keeps, every run keeps. -/
theorem Wrote.invariant {ok : Db → StoreOp → Prop} {P : Db → Prop}
    (step : ∀ {db op db'}, ok db op → Wrote hashes db op db' → P db → P db')
    {ops : List StoreOp} (hrun : (Store.system hashes).Steps ok db ops db') (hdb : P db) : P db' := by
  refine Lts.Steps.invariant ?_ hrun hdb
  intro db op db' hok hs hdb
  exact step hok (wrote_of_step hs) hdb

/-! ## Snapshots -/

theorem putSnapshot_ok {s : Snapshot} {now : Nat} (h : Store.putSnapshot hashes db s now = .ok db') :
    s.verifyIdentity hashes ∧ db' = { db with
      snapshotBlame := db.snapshotBlame.restrict fun k _ => k.snapshotId ≠ s.id
      snapshots := db.snapshots.put s.id ⟨s.stored, now,
        ((db.snapshots.find s.id).map SnapshotRow.rowid).getD (Store.freshRowid db)⟩ } := by
  unfold Store.putSnapshot at h
  split at h
  · cases h
  · rename_i hv
    cases h
    exact ⟨not_not.mp hv, rfl⟩

theorem touch_find (db : Db) (id k : SnapshotId) (now : Nat) :
    (Store.touch db id now).snapshots.find k = (db.snapshots.find k).map fun r =>
      if k = id then { r with updatedAt := now } else r := by
  unfold Store.touch
  dsimp only
  rw [Table.find_modify]
  split
  · rfl
  · rw [Option.map_id']

/-- The snapshots `prune` removes. -/
def Gone (db : Db) (keep : Nat) (id : SnapshotId) : Prop :=
  id ∈ db.snapshots.keys.filter fun id => Store.doomed db keep id

instance (db : Db) (keep : Nat) (id : SnapshotId) : Decidable (Gone db keep id) :=
  inferInstanceAs (Decidable (_ ∈ _))

theorem prune_snapshots_find (db : Db) (keep : Nat) (id : SnapshotId) :
    (Store.prune db keep).snapshots.find id =
      if Gone db keep id then none else db.snapshots.find id := by
  unfold Store.prune
  dsimp only
  rw [Table.find_restrict]
  cases db.snapshots.find id with
  | none => exact (ite_self none).symm
  | some row =>
    by_cases hg : Gone db keep id
    · rw [if_pos hg]
      exact Option.filter_some_neg (by simpa [Gone] using hg)
    · rw [if_neg hg]
      exact Option.filter_some_pos (by exact decide_eq_true hg)

theorem not_gone_of_find {keep : Nat} {id : SnapshotId} {row : SnapshotRow}
    (h : (Store.prune db keep).snapshots.find id = some row) : ¬ Gone db keep id := by
  intro hgone
  rw [prune_snapshots_find, if_pos hgone] at h
  cases h

/-- **Where a row of the snapshots comes from.** -/
theorem Wrote.snapshot_row (h : Wrote hashes db op db') {id : SnapshotId} {row' : SnapshotRow}
    (hrow' : db'.snapshots.find id = some row') :
    (∃ row, db.snapshots.find id = some row ∧ row.data = row'.data ∧ row.rowid = row'.rowid) ∨
      ∃ s now, op = .putSnapshot s now ∧ s.id = id ∧ row'.data = s.stored ∧ row'.rowid =
        ((db.snapshots.find s.id).map SnapshotRow.rowid).getD (Store.freshRowid db) := by
  have htouch : ∀ (db₁ : Db) (i : SnapshotId) (now : Nat), db₁.snapshots = db.snapshots →
      (Store.touch db₁ i now).snapshots.find id = some row' →
      ∃ row, db.snapshots.find id = some row ∧ row.data = row'.data ∧ row.rowid = row'.rowid := by
    intro db₁ i now hsame hrow'
    rw [touch_find, hsame] at hrow'
    obtain ⟨row, hrow, rfl⟩ := Option.map_eq_some_iff.mp hrow'
    refine ⟨row, hrow, ?_⟩
    split <;> exact ⟨rfl, rfl⟩
  cases h with
  | put hput =>
    rename_i s now
    obtain ⟨-, rfl⟩ := putSnapshot_ok hput
    dsimp only at hrow'
    rw [Table.find_put] at hrow'
    split at hrow'
    · rename_i hid
      cases hrow'
      exact .inr ⟨s, now, rfl, hid.symm, rfl, rfl⟩
    · exact .inl ⟨row', hrow', rfl, rfl⟩
  | saved hs =>
    rw [hs.result] at hrow'
    exact .inl ⟨row', hrow', rfl, rfl⟩
  | moved _ hm =>
    rw [hm.snapshots] at hrow'
    exact .inl ⟨row', hrow', rfl, rfl⟩
  | blamed href => exact .inl (htouch _ _ _ rfl hrow')
  | shown => exact .inl (htouch _ _ _ rfl hrow')
  | pruned =>
    rw [prune_snapshots_find] at hrow'
    split at hrow'
    · cases hrow'
    · exact .inl ⟨row', hrow', rfl, rfl⟩
  | _ => exact .inl ⟨row', hrow', rfl, rfl⟩

/-! ## Drafts -/

/-- **The ways an operation lets the row of a draft go on.** -/
inductive DraftWrite (hashes : Hashes) (db : Db) (op : StoreOp) (db' : Db) (x : DraftId) :
    Option DraftRow → Option DraftRow → Prop
  | same {r : Option DraftRow} : DraftWrite hashes db op db' x r r
  | saved {d : Draft} {r : Option DraftRow} (hop : op = .saveDraft d) (hid : d.id = x)
      (hs : SaveAccepted hashes db d db') :
      DraftWrite hashes db op db' x r (some (Store.savedRow r d))
  | discarded {row : DraftRow} {v : Nat} (hop : op = .discardDraft x v) :
      DraftWrite hashes db op db' x (some row) none
  | published {row : DraftRow} {e : OutboxEntry} {orow : OutboxRow} (hm : Moved db e db' orow)
      (hst : e.state = .confirmed) :
      DraftWrite hashes db op db' x (some row) (some (publishedBy e.prepared.comments x row))
  | pruned {row : DraftRow} {keep : Nat} (hop : op = .prune keep)
      (hgone : Gone db keep row.snapshotId) : DraftWrite hashes db op db' x (some row) none

theorem prune_draft (db : Db) (keep : Nat) (x : DraftId) :
    (Store.prune db keep).drafts.find x = (db.drafts.find x).filter fun row =>
      decide (¬ Gone db keep row.snapshotId) :=
  Table.find_restrict ..

theorem Wrote.draft (h : Wrote hashes db op db') (hk : Keyed db.drafts) (x : DraftId) :
    DraftWrite hashes db op db' x (db.drafts.find x) (db'.drafts.find x) := by
  cases h with
  | put hput =>
    obtain ⟨-, rfl⟩ := putSnapshot_ok hput
    exact .same
  | saved hs =>
    rename_i d
    have hresult : db'.drafts.find x = if x = d.id
        then some (Store.savedRow (db.drafts.find d.id) d) else db.drafts.find x := by
      rw [hs.result]
      exact Table.find_put ..
    rw [hresult]
    split
    · rename_i hx
      subst hx
      exact .saved rfl rfl hs
    · exact .same
  | discarded hrow hv hpub =>
    dsimp only
    rw [Table.find_erase]
    split
    · rename_i hx
      subst hx
      rw [hrow]
      exact .discarded rfl
    · exact .same
  | moved _ hm =>
    rw [hm.drafts]
    split
    · rename_i hst
      rw [publishDrafts_find hk]
      cases hx : db.drafts.find x with
      | none => exact .same
      | some row => exact .published hm hst
    · exact .same
  | pruned =>
    rename_i keep
    rw [prune_draft]
    cases hx : db.drafts.find x with
    | none => exact .same
    | some row =>
      by_cases hg : Gone db keep row.snapshotId
      · rw [Option.filter_some_neg (by simpa using hg)]
        exact .pruned rfl hg
      · rw [Option.filter_some_pos (by simpa using hg)]
        exact .same
  | _ => exact .same

/-- The columns of a draft's row agree with the JSON beside them. -/
structure InStep (x : DraftId) (row : DraftRow) : Prop where
  id : row.data.id = x
  snapshot : row.snapshotId = row.data.snapshot
  version : row.version = row.data.version
  published : row.published = row.data.published

def DraftsInStep (db : Db) : Prop := ∀ x row, db.drafts.find x = some row → InStep x row

theorem DraftsInStep.keyed (h : DraftsInStep db) : Keyed db.drafts :=
  fun x row hrow => (h x row hrow).id

theorem InStep.saved {d : Draft} (hs : SaveAccepted hashes db d db')
    (h : ∀ row, db.drafts.find d.id = some row → InStep d.id row) :
    InStep d.id (Store.savedRow (db.drafts.find d.id) d) := by
  cases hrow : db.drafts.find d.id with
  | none => exact ⟨rfl, rfl, rfl, hs.unpublished.symm⟩
  | some row =>
    have hin := h row hrow
    have hover := hs.earlier row hrow
    refine ⟨rfl, ?_, rfl, ?_⟩
    · exact hin.snapshot.trans hover.place.snapshot
    · exact (hin.published.trans hover.unpublished).trans hs.unpublished.symm

theorem InStep.publishedBy {x : DraftId} {row : DraftRow} (h : InStep x row)
    (cs : List PreparedComment) : InStep x (publishedBy cs x row) := by
  unfold Proof.publishedBy
  split
  · exact ⟨h.id, h.snapshot, h.version, rfl⟩
  · exact h

theorem DraftsInStep.step (h : Wrote hashes db op db') (hd : DraftsInStep db) :
    DraftsInStep db' := by
  intro x row' hrow'
  have hstep := h.draft hd.keyed x
  rw [hrow'] at hstep
  generalize hbefore : db.drafts.find x = before at hstep
  cases hstep with
  | same => exact hd x row' hbefore
  | saved hop hid hs =>
    subst hid hbefore
    exact InStep.saved hs (hd _)
  | published hm hst => exact (hd x _ hbefore).publishedBy _

/-! ## Every row refers to a snapshot -/

/-- The foreign keys of the schema. -/
structure Referenced (db : Db) : Prop where
  drafts : ∀ x row, db.drafts.find x = some row → Present db row.snapshotId
  views : ∀ id row, db.views.find id = some row → Present db id
  hiddenRecents : ∀ id u, db.hiddenRecents.find id = some u → Present db id
  snapshotBlame : ∀ k ranges, db.snapshotBlame.find k = some ranges → Present db k.snapshotId

theorem writeBlame_find {t : Table BlameKey (List Blamed)} {id : SnapshotId} {key : String}
    {found : BlameRead} {k : BlameKey} {ranges : List Blamed}
    (h : (Store.writeBlame t id key found).find k = some ranges) :
    t.find k = some ranges ∨
      k.snapshotId = id ∧ k.releasesKey = key ∧ (k.path, some ranges) ∈ found.entries := by
  have hf : ∀ (t : Table BlameKey (List Blamed)) (e : String × Option (List Blamed)),
      (e.2.elim t fun ranges => t.put ⟨id, e.1, key⟩ ranges).find k = some ranges →
      t.find k = some ranges ∨
        k.snapshotId = id ∧ k.releasesKey = key ∧ (k.path, some ranges) = e := by
    rintro t ⟨path, read⟩ h
    cases read with
    | none => exact .inl h
    | some written =>
      dsimp only [Option.elim_some] at h
      rw [Table.find_put] at h
      split at h
      · rename_i hk
        cases h
        subst hk
        exact .inr ⟨rfl, rfl, rfl⟩
      · exact .inl h
  have hfold : Store.writeBlame t id key found = found.entries.foldl
      (fun t e => e.2.elim t fun ranges => t.put ⟨id, e.1, key⟩ ranges) t := by
    unfold Store.writeBlame
    congr
    funext t e
    cases e.2 <;> rfl
  rw [hfold] at h
  rcases Table.find_foldl hf h with hold | ⟨e, he, hid, hkey, rfl⟩
  · exact .inl hold
  · exact .inr ⟨hid, hkey, he⟩

theorem hideRecent_find {id : Option SnapshotId} {k : SnapshotId} {u : Unit}
    (h : (Store.hideRecent db id).hiddenRecents.find k = some u) :
    db.hiddenRecents.find k = some u ∨ Present db k := by
  have hf : ∀ (t : Table SnapshotId Unit) (i : SnapshotId), (t.put i ()).find k = some u →
      t.find k = some u ∨ k = i := by
    intro t i h
    rw [Table.find_put] at h
    split at h
    · exact .inr ‹_›
    · exact .inl h
  rcases Table.find_foldl hf h with hold | ⟨i, hi, rfl⟩
  · exact .inl hold
  · exact .inr (AList.lookup_isSome.mpr (AList.mem_keys.mpr (List.mem_of_mem_filter hi)))

/-- A row of a table that pruning goes through stays with its snapshot. -/
theorem Present.pruned {keep : Nat} {id : SnapshotId} (h : Present db id)
    (hkept : decide (id ∉ db.snapshots.keys.filter fun id => Store.doomed db keep id) = true) :
    Present (Store.prune db keep) id := by
  have hkept : ¬ Gone db keep id := of_decide_eq_true hkept
  unfold Present
  rw [prune_snapshots_find, if_neg hkept]
  exact h

theorem Referenced.prune (h : Referenced db) (keep : Nat) : Referenced (Store.prune db keep) := by
  constructor
  · intro x row hrow
    obtain ⟨hrow, hkept⟩ := Option.filter_eq_some_iff.mp ((Table.find_restrict ..).symm.trans hrow)
    exact (h.drafts x row hrow).pruned hkept
  · intro id row hrow
    obtain ⟨hrow, hkept⟩ := Option.filter_eq_some_iff.mp ((Table.find_restrict ..).symm.trans hrow)
    exact (h.views id row hrow).pruned hkept
  · intro id u hrow
    obtain ⟨hrow, hkept⟩ := Option.filter_eq_some_iff.mp ((Table.find_restrict ..).symm.trans hrow)
    exact (h.hiddenRecents id u hrow).pruned hkept
  · intro k ranges hrow
    obtain ⟨hrow, hkept⟩ := Option.filter_eq_some_iff.mp ((Table.find_restrict ..).symm.trans hrow)
    exact (h.snapshotBlame k ranges hrow).pruned hkept

/-- Only pruning removes snapshots. -/
theorem Wrote.present (h : Wrote hashes db op db') (hop : ∀ keep, op ≠ .prune keep)
    {id : SnapshotId} (hp : Present db id) : Present db' id := by
  cases h with
  | pruned => exact absurd rfl (hop _)
  | put hput =>
    obtain ⟨-, rfl⟩ := putSnapshot_ok hput
    unfold Present
    rw [Table.find_put]
    split
    · rfl
    · exact hp
  | blamed href =>
    unfold Present
    rw [touch_find, Option.isSome_map]
    exact hp
  | shown =>
    unfold Present Store.showRecent
    rw [touch_find, Option.isSome_map]
    exact hp
  | saved hs =>
    rw [hs.result]
    exact hp
  | moved _ hm =>
    unfold Present
    rw [hm.snapshots]
    exact hp
  | _ => exact hp

theorem savedRow_snapshotId {r : Option DraftRow} {d : Draft}
    (h : ∀ row, r = some row → row.snapshotId = d.snapshot) :
    (Store.savedRow r d).snapshotId = d.snapshot := by
  cases r with
  | none => rfl
  | some row => exact h row rfl

/-- A snapshot that was read is in the store. -/
theorem PlacedIn.present {d : Draft} {s : Snapshot} {f : FileChange} (h : PlacedIn hashes db d s f) :
    Present db d.snapshot := by
  obtain ⟨row, rows, hrow, -⟩ := snapshot_ok h.read
  unfold Present
  rw [hrow]
  rfl

theorem Referenced.draft_step (h : Wrote hashes db op db') (hop : ∀ keep, op ≠ .prune keep)
    (hd : DraftsInStep db) (hr : Referenced db) {x : DraftId} {row' : DraftRow}
    (hrow' : db'.drafts.find x = some row') : Present db' row'.snapshotId := by
  refine h.present hop ?_
  have hstep := h.draft hd.keyed x
  rw [hrow'] at hstep
  generalize hbefore : db.drafts.find x = before at hstep
  cases hstep with
  | same => exact hr.drafts x row' hbefore
  | saved hop' hid hs =>
    subst hid hbefore
    obtain ⟨s, f, hplaced⟩ := hs.placed
    have hcol := (InStep.saved hs (hd _)).snapshot
    rw [hcol, savedRow_data]
    exact hplaced.present
  | published hm hst =>
    rename_i row e orow
    have hcol : (publishedBy e.prepared.comments x row).snapshotId = row.snapshotId := by
      unfold publishedBy
      split <;> rfl
    rw [hcol]
    exact hr.drafts x row hbefore

theorem Referenced.view_step (h : Wrote hashes db op db') (hop : ∀ keep, op ≠ .prune keep)
    (hr : Referenced db) {id : SnapshotId} {row' : ViewRow}
    (hrow' : db'.views.find id = some row') : Present db' id := by
  refine h.present hop ?_
  cases h with
  | pruned => exact absurd rfl (hop _)
  | put hput =>
    obtain ⟨-, rfl⟩ := putSnapshot_ok hput
    exact hr.views id row' hrow'
  | saved hs =>
    rw [hs.result] at hrow'
    exact hr.views id row' hrow'
  | moved _ hm =>
    rw [hm.views] at hrow'
    exact hr.views id row' hrow'
  | viewed href =>
    dsimp only at hrow'
    rw [Table.find_put] at hrow'
    split at hrow'
    · rename_i hid
      subst hid
      rcases href with hp | hold
      · exact hp
      · obtain ⟨old, hold⟩ := Option.isSome_iff_exists.mp hold
        exact hr.views id old hold
    · exact hr.views id row' hrow'
  | _ => exact hr.views id row' hrow'

theorem Referenced.hidden_step (h : Wrote hashes db op db') (hop : ∀ keep, op ≠ .prune keep)
    (hr : Referenced db) {id : SnapshotId} {u : Unit}
    (hrow' : db'.hiddenRecents.find id = some u) : Present db' id := by
  refine h.present hop ?_
  cases h with
  | pruned => exact absurd rfl (hop _)
  | put hput =>
    obtain ⟨-, rfl⟩ := putSnapshot_ok hput
    exact hr.hiddenRecents id u hrow'
  | saved hs =>
    rw [hs.result] at hrow'
    exact hr.hiddenRecents id u hrow'
  | moved _ hm =>
    rw [hm.hiddenRecents] at hrow'
    exact hr.hiddenRecents id u hrow'
  | shown =>
    rename_i shown now
    have hrow' : Table.find (AList.erase shown db.hiddenRecents) id = some u := hrow'
    rw [Table.find_erase] at hrow'
    split at hrow'
    · cases hrow'
    · exact hr.hiddenRecents id u hrow'
  | hidden =>
    rcases hideRecent_find hrow' with hold | hp
    · exact hr.hiddenRecents id u hold
    · exact hp
  | _ => exact hr.hiddenRecents id u hrow'

/-- **Where a row of the blame comes from.** -/
theorem Wrote.blame_row (h : Wrote hashes db op db') {k : BlameKey} {ranges : List Blamed}
    (hrow' : db'.snapshotBlame.find k = some ranges) :
    db.snapshotBlame.find k = some ranges ∨ ∃ key found now,
      op = .saveBlame k.snapshotId key found now ∧ k.releasesKey = key ∧
        (k.path, some ranges) ∈ found.entries ∧ Present db k.snapshotId := by
  cases h with
  | put hput =>
    obtain ⟨-, rfl⟩ := putSnapshot_ok hput
    dsimp only at hrow'
    rw [Table.find_restrict] at hrow'
    exact .inl (Option.filter_eq_some_iff.mp hrow').1
  | saved hs =>
    rw [hs.result] at hrow'
    exact .inl hrow'
  | moved _ hm =>
    rw [hm.snapshotBlame] at hrow'
    exact .inl hrow'
  | blamed href =>
    rcases writeBlame_find hrow' with hold | ⟨rfl, hkey, hmem⟩
    · exact .inl hold
    · exact .inr ⟨_, _, _, rfl, hkey, hmem, href _ hmem rfl⟩
  | pruned =>
    have hrow' := (Table.find_restrict ..).symm.trans hrow'
    exact .inl (Option.filter_eq_some_iff.mp hrow').1
  | _ => exact .inl hrow'

theorem Referenced.blame_step (h : Wrote hashes db op db') (hop : ∀ keep, op ≠ .prune keep)
    (hr : Referenced db) {k : BlameKey} {ranges : List Blamed}
    (hrow' : db'.snapshotBlame.find k = some ranges) : Present db' k.snapshotId := by
  refine h.present hop ?_
  rcases h.blame_row hrow' with hold | ⟨-, -, -, -, -, -, hp⟩
  · exact hr.snapshotBlame k ranges hold
  · exact hp

theorem Referenced.step (h : Wrote hashes db op db') (hd : DraftsInStep db) (hr : Referenced db) :
    Referenced db' := by
  by_cases hop : ∃ keep, op = .prune keep
  · obtain ⟨keep, rfl⟩ := hop
    cases h with
    | idle => exact hr
    | pruned => exact hr.prune keep
    | moved hop =>
      rcases hop with ⟨rules, hop⟩ | ⟨id, hop⟩
      · cases hop
      · cases hop
  · have hop := not_exists.mp hop
    exact ⟨fun _ _ => hr.draft_step h hop hd, fun _ _ => hr.view_step h hop,
      fun _ _ => hr.hidden_step h hop, fun _ _ => hr.blame_step h hop⟩

/-! ## Operations and rowids -/

/-- The state column of an operation agrees with its JSON. -/
def OutboxInStep (db : Db) : Prop := ∀ id row, db.outbox.find id = some row → row.state = row.data.state

theorem OutboxInStep.step (h : Wrote hashes db op db') (ho : OutboxInStep db) : OutboxInStep db' := by
  intro id row' hrow'
  cases h with
  | put hput =>
    obtain ⟨-, rfl⟩ := putSnapshot_ok hput
    exact ho id row' hrow'
  | saved hs =>
    rw [hs.result] at hrow'
    exact ho id row' hrow'
  | inserted =>
    dsimp only at hrow'
    rw [Table.find_put] at hrow'
    split at hrow'
    · cases hrow'
      rfl
    · exact ho id row' hrow'
  | moved _ hm =>
    rw [hm.find] at hrow'
    split at hrow'
    · cases hrow'
      rfl
    · exact ho id row' hrow'
  | _ => exact ho id row' hrow'

/-- No two snapshots have one rowid. -/
def RowidsDistinct (db : Db) : Prop :=
  ∀ a b ra rb, db.snapshots.find a = some ra → db.snapshots.find b = some rb →
    ra.rowid = rb.rowid → a = b

theorem rowid_lt_fresh {id : SnapshotId} {row : SnapshotRow}
    (h : db.snapshots.find id = some row) : row.rowid < Store.freshRowid db := by
  have hmem : row.rowid ∈ db.snapshots.rows.map SnapshotRow.rowid :=
    List.mem_map_of_mem (Table.mem_rows_iff.mpr ⟨id, h⟩)
  exact Nat.lt_succ_of_le (List.le_max_of_le' 0 hmem le_rfl)

/-- Every row of the snapshots had its rowid before, or the rowid is new. -/
theorem Wrote.rowid (h : Wrote hashes db op db') {id : SnapshotId} {row' : SnapshotRow}
    (hrow' : db'.snapshots.find id = some row') :
    (∃ row, db.snapshots.find id = some row ∧ row.rowid = row'.rowid) ∨
      row'.rowid = Store.freshRowid db ∧ ∃ s now, op = .putSnapshot s now ∧ s.id = id := by
  rcases h.snapshot_row hrow' with ⟨row, hrow, -, hid⟩ | ⟨s, now, hop, rfl, -, hid⟩
  · exact .inl ⟨row, hrow, hid⟩
  · cases hold : db.snapshots.find s.id with
    | none =>
      rw [hold] at hid
      exact .inr ⟨hid, s, now, hop, rfl⟩
    | some row =>
      rw [hold] at hid
      exact .inl ⟨row, rfl, hid.symm⟩

theorem RowidsDistinct.step (h : Wrote hashes db op db') (hd : RowidsDistinct db) :
    RowidsDistinct db' := by
  intro a b ra' rb' ha' hb' heq
  rcases h.rowid ha' with ⟨ra, ha, hra⟩ | ⟨hra, s, now, hop, rfl⟩
  · rcases h.rowid hb' with ⟨rb, hb, hrb⟩ | ⟨hrb, -⟩
    · exact hd a b ra rb ha hb ((hra.trans heq).trans hrb.symm)
    · have hlt := rowid_lt_fresh ha
      omega
  · rcases h.rowid hb' with ⟨rb, hb, hrb⟩ | ⟨-, s', now', hop', rfl⟩
    · have hlt := rowid_lt_fresh hb
      omega
    · rw [hop] at hop'
      cases hop'
      rfl

/-! ## Reachable stores -/

/-- What every store that was reached has. -/
structure StoreSound (db : Db) : Prop where
  drafts : DraftsInStep db
  outbox : OutboxInStep db
  references : Referenced db
  rowids : RowidsDistinct db

theorem StoreSound.empty : StoreSound .empty := by
  refine ⟨?_, ?_, ⟨?_, ?_, ?_, ?_⟩, ?_⟩
  · intro x row h
    cases h
  · intro id row h
    cases h
  · intro x row h
    cases h
  · intro id row h
    cases h
  · intro id u h
    cases h
  · intro k ranges h
    cases h
  · intro a b ra rb h
    cases h

theorem StoreSound.step (h : Wrote hashes db op db') (hs : StoreSound db) : StoreSound db' :=
  ⟨hs.drafts.step h, hs.outbox.step h, hs.references.step h hs.drafts, hs.rowids.step h⟩

theorem StoreSound.run {ok : Db → StoreOp → Prop} {ops : List StoreOp}
    (h : (Store.system hashes).Steps ok .empty ops db) : StoreSound db :=
  Wrote.invariant (fun _ hw hs => hs.step hw) h .empty

end Proof
end Diffz
