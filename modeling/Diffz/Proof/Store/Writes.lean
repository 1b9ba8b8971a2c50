import Diffz.Adapters.Store

/-!
# What a write of the store does

The inversions the results about the store go through, one for each write: what has been checked
when it is accepted, and which rows are other rows afterwards.
-/

set_option autoImplicit false

namespace Diffz
namespace Proof

variable {hashes : Hashes} {db db' : Db}

/-! ## Saving -/

/-- The two drafts are on the same lines of the same file. -/
structure SamePlace (a b : Draft) : Prop where
  snapshot : a.snapshot = b.snapshot
  file : a.file = b.file
  side : a.side = b.side
  startLine : a.startLine = b.startLine
  line : a.line = b.line

/-- What a save over a row has checked. -/
structure SavesOver (old d : Draft) : Prop where
  place : SamePlace old d
  unpublished : old.published = false
  version : old.version ≤ d.version
  body : old.version = d.version → old.body = d.body

theorem saveOver_ok {old d : Draft} (h : Store.saveOver old d = .ok ()) : SavesOver old d := by
  unfold Store.saveOver at h
  split at h
  · cases h
  rename_i hid
  split at h
  · cases h
  rename_i hstale
  split at h
  · cases h
  rename_i htext
  simp only [not_or, not_not, Bool.not_eq_true] at hid
  simp only [not_and, not_not] at htext
  obtain ⟨hsnap, hfile, hside, hstart, hline, hpub⟩ := hid
  exact ⟨⟨hsnap, hfile, hside, hstart, hline⟩, hpub, Nat.not_lt.mp hstale, htext⟩

/-- What `save_draft` checks of a draft before it looks for a row. -/
structure PlacedIn (hashes : Hashes) (db : Db) (d : Draft) (s : Snapshot) (f : FileChange) : Prop where
  read : Store.snapshot hashes db d.snapshot = .ok s
  file : s.file d.file = some f
  eligible : d.fileLevel = false → f.eligible d.side d.startLine d.line

/-- What a save that was accepted has checked, and what it writes. -/
structure SaveAccepted (hashes : Hashes) (db : Db) (d : Draft) (db' : Db) : Prop where
  version : 0 < d.version
  sized : d.version ≤ Store.i64Max ∧ (asBytes d.body).length ≤ 1024 * 1024
  placed : ∃ s f, PlacedIn hashes db d s f
  unpublished : d.published = false
  earlier : ∀ row, db.drafts.find d.id = some row → SavesOver row.data d
  result : db' = { db with drafts := db.drafts.put d.id (Store.savedRow (db.drafts.find d.id) d) }

theorem savedRow_data (r : Option DraftRow) (d : Draft) :
    (Store.savedRow r d).data = { d with savedVersion := d.version } := by
  cases r <;> rfl

theorem saveDraft_ok {d : Draft} (h : Store.saveDraft hashes db d = .ok db') :
    SaveAccepted hashes db d db' := by
  unfold Store.saveDraft at h
  split at h
  · cases h
  rename_i hsize
  simp only [not_or, Nat.not_lt] at hsize
  cases hs : Store.snapshot hashes db d.snapshot with
  | error =>
    rw [hs] at h
    cases h
  | ok s =>
    rw [hs] at h
    dsimp only at h
    split at h
    · cases h
    rename_i f hf
    split at h
    · cases h
    rename_i hel
    simp only [Draft.isFileLevel, not_and, Bool.not_eq_true, Bool.not_eq_false] at hel
    cases hover : (Option.map (fun row => Store.saveOver row.data d)
        (db.drafts.find d.id)).getD (.ok ()) with
    | error =>
      rw [hover] at h
      cases h
    | ok u =>
      rw [hover] at h
      dsimp only at h
      split at h
      · cases h
      rename_i hpub
      cases h
      refine ⟨Nat.pos_of_ne_zero hsize.1, hsize.2, ⟨s, f, hs, hf, hel⟩, by simpa using hpub, ?_,
        rfl⟩
      intro row hrow
      rw [hrow] at hover
      exact saveOver_ok hover

/-- A draft that passes the checks is written. -/
theorem saveDraft_of_checks {d : Draft} {s : Snapshot} {f : FileChange} (hv : 0 < d.version)
    (hsize : d.version ≤ Store.i64Max ∧ (asBytes d.body).length ≤ 1024 * 1024)
    (hp : PlacedIn hashes db d s f) (hpub : d.published = false)
    (hover : ∀ row, db.drafts.find d.id = some row → Store.saveOver row.data d = .ok ()) :
    Store.saveDraft hashes db d = .ok
      { db with drafts := db.drafts.put d.id (Store.savedRow (db.drafts.find d.id) d) } := by
  have hmeta : ¬ (d.version = 0 ∨ d.version > Store.i64Max ∨ (asBytes d.body).length > 1024 * 1024) := by
    omega
  have hrange : ¬ (¬ d.isFileLevel ∧ ¬ f.eligible d.side d.startLine d.line) := by
    rintro ⟨hline, hel⟩
    exact hel (hp.eligible (by simpa [Draft.isFileLevel] using hline))
  have hold : ((db.drafts.find d.id).map fun row => Store.saveOver row.data d).getD (.ok ()) =
      .ok () := by
    cases hrow : db.drafts.find d.id with
    | none => rfl
    | some row => exact hover row hrow
  unfold Store.saveDraft
  rw [if_neg hmeta, hp.read]
  dsimp only
  rw [hp.file]
  dsimp only
  rw [if_neg hrange, hold]
  dsimp only
  rw [if_neg (by simp [hpub])]

theorem snapshot_ok {id : SnapshotId} {s : Snapshot} (h : Store.snapshot hashes db id = .ok s) :
    ∃ row rows, db.snapshots.find id = some row ∧ s = Store.overlaid row.data rows := by
  unfold Store.snapshot at h
  split at h
  · cases h
  · rename_i row hrow
    split at h <;> cases h
    exact ⟨row, _, hrow, rfl⟩

theorem discardDraft_ok {x : DraftId} {v : Nat} (h : Store.discardDraft db x v = .ok db') :
    ∃ row, db.drafts.find x = some row ∧ row.version = v ∧ row.published = false ∧
      db' = { db with drafts := db.drafts.erase x } := by
  unfold Store.discardDraft at h
  split at h
  · rename_i row hrow
    split at h
    · rename_i hc
      cases h
      exact ⟨row, hrow, hc.1, hc.2, rfl⟩
    · cases h
  · cases h

/-! ## Publishing -/

/-- Every row stands under the id of its draft. -/
def Keyed (t : Table DraftId DraftRow) : Prop :=
  ∀ x row, t.find x = some row → row.data.id = x

/-- Whether a confirmed comment is the text of the row. -/
def Carries (x : DraftId) (row : DraftRow) (c : PreparedComment) : Prop :=
  c.draft = x ∧ row.data.version = c.version ∧ row.data.body = c.body

instance (x : DraftId) (row : DraftRow) (c : PreparedComment) : Decidable (Carries x row c) :=
  inferInstanceAs (Decidable (_ ∧ _ ∧ _))

def published (row : DraftRow) : DraftRow :=
  { row with published := true, data := { row.data with published := true } }

/-- The row of `x` after the comments were confirmed. -/
def publishedBy (cs : List PreparedComment) (x : DraftId) (row : DraftRow) : DraftRow :=
  if ∃ c ∈ cs, Carries x row c then published row else row

theorem publishDraft_find {t : Table DraftId DraftRow} (ht : Keyed t) (c : PreparedComment)
    (x : DraftId) : (Store.publishDraft t c).find x = (t.find x).map (publishedBy [c] x) := by
  have hone : ∀ row, publishedBy [c] x row = if Carries x row c then published row else row := by
    intro row
    simp [publishedBy]
  unfold Store.publishDraft
  split
  · rename_i hnone
    cases hx : t.find x with
    | none => rfl
    | some row =>
      rw [Option.map_some, hone, if_neg]
      rintro ⟨rfl, -⟩
      rw [hnone] at hx
      cases hx
  · rename_i row hrow
    have hid := ht _ row hrow
    split
    · rename_i hmatch
      rw [Table.find_modify, hid]
      split
      · rename_i hx
        subst hx
        rw [hrow, Option.map_some, Option.map_some, hone, if_pos ⟨rfl, hmatch⟩]
        rfl
      · rename_i hx
        cases ht' : t.find x with
        | none => rfl
        | some row' => rw [Option.map_some, hone, if_neg fun hc => hx hc.1.symm]
    · rename_i hmatch
      cases ht' : t.find x with
      | none => rfl
      | some row' =>
        rw [Option.map_some, hone, if_neg]
        rintro ⟨rfl, hm⟩
        rw [hrow] at ht'
        cases ht'
        exact hmatch hm

theorem Keyed.publishDraft {t : Table DraftId DraftRow} (ht : Keyed t) (c : PreparedComment) :
    Keyed (Store.publishDraft t c) := by
  intro x row hrow
  rw [publishDraft_find ht] at hrow
  obtain ⟨row₀, hrow₀, rfl⟩ := Option.map_eq_some_iff.mp hrow
  unfold publishedBy
  split <;> exact ht x row₀ hrow₀

theorem publishedBy_cons (c : PreparedComment) (cs : List PreparedComment) (x : DraftId)
    (row : DraftRow) :
    publishedBy cs x (publishedBy [c] x row) = publishedBy (c :: cs) x row := by
  by_cases hc : Carries x row c
  · have hfirst : publishedBy [c] x row = published row := if_pos ⟨c, by simp, hc⟩
    have hall : publishedBy (c :: cs) x row = published row := if_pos ⟨c, by simp, hc⟩
    rw [hfirst, hall]
    unfold publishedBy
    split <;> rfl
  · have hfirst : publishedBy [c] x row = row := by simp [publishedBy, hc]
    rw [hfirst]
    simp [publishedBy, hc]

/-- **What confirming a review does to the drafts.** -/
theorem publishDrafts_find {t : Table DraftId DraftRow} (ht : Keyed t) (cs : List PreparedComment)
    (x : DraftId) : (Store.publishDrafts t cs).find x = (t.find x).map (publishedBy cs x) := by
  unfold Store.publishDrafts
  induction cs generalizing t with
  | nil =>
    have hid : publishedBy [] x = id := by
      funext row
      simp [publishedBy]
    rw [List.foldl_nil, hid, Option.map_id]
    rfl
  | cons c cs ih =>
    rw [List.foldl_cons, ih (ht.publishDraft c), publishDraft_find ht, Option.map_map]
    congr 1
    funext row
    exact publishedBy_cons c cs x row

/-! ## The outbox -/

/-- The entry `insert_prepared` writes. -/
def newEntry (p : PreparedReview) : OutboxEntry :=
  { prepared := p, state := .prepared, baselineReviewIds := [], remoteId := none,
    diagnostic := none }

theorem insertPrepared_ok {p : PreparedReview} {rules : ReviewRules}
    (h : Store.insertPrepared hashes db p rules = .ok db') :
    p.verify hashes rules ∧ db.outbox.find p.id = none ∧
      db' = { db with outbox := db.outbox.put p.id ⟨.prepared, newEntry p⟩ } := by
  unfold Store.insertPrepared at h
  split at h
  · cases h
  rename_i hv
  dsimp only at h
  split at h
  · cases h
  rename_i hn
  cases h
  exact ⟨not_not.mp hv, hn, rfl⟩

/-- What a successful transition to `e` has checked, and what it writes. -/
structure Moved (db : Db) (e : OutboxEntry) (db' : Db) (row : OutboxRow) : Prop where
  found : db.outbox.find e.prepared.id = some row
  fingerprint : row.data.prepared.fingerprint = e.prepared.fingerprint
  allowed : row.data.state.canTransition e.state
  snapshots : db'.snapshots = db.snapshots
  drafts : db'.drafts =
    if e.state = .confirmed then Store.publishDrafts db.drafts e.prepared.comments else db.drafts
  outbox : db'.outbox = db.outbox.modify e.prepared.id fun _ => ⟨e.state, e⟩
  views : db'.views = db.views
  hiddenRecents : db'.hiddenRecents = db.hiddenRecents
  snapshotBlame : db'.snapshotBlame = db.snapshotBlame

theorem writeTransition_ok {e : OutboxEntry} {r : Option ReviewRules}
    (h : Store.writeTransition hashes db e r = .ok db') : ∃ row, Moved db e db' row := by
  unfold Store.writeTransition at h
  split at h
  · cases h
  rename_i row hrow
  split at h
  · cases h
  rename_i hfp
  split at h
  · cases h
  rename_i hallowed
  simp only [not_or, not_not] at hfp hallowed
  refine ⟨row, ?_⟩
  dsimp only at h
  split at h
  · rename_i hconf
    split at h
    · cases h
    · cases h
      exact ⟨hrow, hfp.1, hallowed, rfl, by rw [if_pos hconf], rfl, rfl, rfl, rfl⟩
  · rename_i hconf
    cases h
    exact ⟨hrow, hfp.1, hallowed, rfl, by rw [if_neg hconf], rfl, rfl, rfl, rfl⟩

theorem Moved.find {e : OutboxEntry} {row : OutboxRow} (h : Moved db e db' row)
    (id : OperationId) : db'.outbox.find id =
      if id = e.prepared.id then some ⟨e.state, e⟩ else db.outbox.find id := by
  rw [h.outbox, Table.find_modify]
  split
  · rename_i hid
    rw [hid, h.found]
    rfl
  · rfl

end Proof
end Diffz
