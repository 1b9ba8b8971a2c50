import Mathlib.Data.List.Sort
import Diffz.Core.Review
import Diffz.Lib.Lts
import Diffz.Lib.Table

/-!
# The store (`crates/adapters/src/store.rs`, `schema.sql`)

The tables a review is kept in, and the writes on them. Every write of the source is one SQL
transaction, so it is one function from the tables to new tables or to an error that leaves them as
they were. A row keeps the columns beside the stored JSON, as the schema does: the statements test
now the one and now the other.

The connection, the file lock and the compression of snapshots are not here; a statement that fails
for a reason of its own is an event of the system in `Outbox`.
-/

set_option autoImplicit false

namespace Diffz

structure SnapshotRow where
  data : Snapshot
  updatedAt : Nat
  rowid : Nat

structure DraftRow where
  snapshotId : SnapshotId
  version : Nat
  data : Draft
  published : Bool

structure OutboxRow where
  state : OutboxState
  data : OutboxEntry

/-- What a reader of a snapshot left open. The places in its files are kept as the text they are
written in. -/
structure SavedView where
  revision : Nat
  reviewSummary : String
  reviewVerdict : Option Verdict
  preferences : Json
  anchors : Json
  selectedFile : Option FileId

structure ViewRow where
  revision : Nat
  data : SavedView

/-- The primary key of `snapshot_blame`. -/
structure BlameKey where
  snapshotId : SnapshotId
  path : String
  releasesKey : String
deriving DecidableEq

structure Db where
  snapshots : Table SnapshotId SnapshotRow
  drafts : Table DraftId DraftRow
  outbox : Table OperationId OutboxRow
  views : Table SnapshotId ViewRow
  hiddenRecents : Table SnapshotId Unit
  snapshotBlame : Table BlameKey (List Blamed)

/-- A database just created. -/
def Db.empty : Db := ⟨∅, ∅, ∅, ∅, ∅, ∅⟩

namespace Store

/-! ## Snapshots -/

/-- The blame rows of a snapshot under one release list, by path. -/
def blameRows (db : Db) (id : SnapshotId) (key : String) : List (String × List Blamed) :=
  db.snapshotBlame.entries.filterMap fun e =>
    if e.1.snapshotId = id ∧ e.1.releasesKey = key then some (e.1.path, e.2) else none

/-- The snapshot with the blame that was read since it was stored laid over its own. -/
def overlaid (s : Snapshot) (rows : List (String × List Blamed)) : Snapshot :=
  { s with overview := { s.overview with
      blame := rows.foldl (fun b r => b.insert r.1 (some r.2)) s.overview.blame } }

def snapshot (hashes : Hashes) (db : Db) (id : SnapshotId) : Except String Snapshot :=
  match db.snapshots.find id with
  | none => .error "Query returned no rows"
  | some row =>
    if row.data.verifyIdentity hashes then
      .ok (overlaid row.data
        (blameRows db id (releasesKey hashes.sha256 row.data.overview.releases)))
    else .error "saved snapshot integrity check failed"

/-- The rowid SQLite gives to a new row. -/
def freshRowid (db : Db) : Nat := (db.snapshots.rows.map SnapshotRow.rowid).foldr max 0 + 1

def putSnapshot (hashes : Hashes) (db : Db) (s : Snapshot) (now : Nat) : Except String Db :=
  if ¬ s.verifyIdentity hashes then .error "snapshot identity and its source data do not agree"
  else
    let rowid := ((db.snapshots.find s.id).map SnapshotRow.rowid).getD (freshRowid db)
    .ok { db with
      snapshotBlame := db.snapshotBlame.restrict fun k _ => k.snapshotId ≠ s.id
      snapshots := db.snapshots.put s.id ⟨s.stored, now, rowid⟩ }

/-- `UPDATE snapshots SET updated_at=unixepoch() WHERE id=?1`. -/
def touch (db : Db) (id : SnapshotId) (now : Nat) : Db :=
  { db with snapshots := db.snapshots.modify id fun r => { r with updatedAt := now } }

/-- The rows of one `save_blame`: the files that could be read. -/
def writeBlame (t : Table BlameKey (List Blamed)) (id : SnapshotId) (key : String)
    (found : BlameRead) : Table BlameKey (List Blamed) :=
  found.entries.foldl (fun t e => match e.2 with
    | some ranges => t.put ⟨id, e.1, key⟩ ranges
    | none => t) t

def saveBlame (db : Db) (id : SnapshotId) (key : String) (found : BlameRead) (now : Nat) :
    Except String Db :=
  if (db.snapshots.find id).isNone ∧ found.entries.any (fun e => e.2.isSome) then
    .error "FOREIGN KEY constraint failed"
  else .ok (touch { db with snapshotBlame := writeBlame db.snapshotBlame id key found } id now)

def showRecent (db : Db) (id : SnapshotId) (now : Nat) : Db :=
  touch { db with hiddenRecents := db.hiddenRecents.erase id } id now

/-- `INSERT OR IGNORE INTO hidden_recents SELECT id FROM snapshots`. -/
def hideRecent (db : Db) (id : Option SnapshotId) : Db :=
  let ids := db.snapshots.keys.filter fun k => id.all (· = k)
  { db with hiddenRecents := ids.foldl (fun t k => t.put k ()) db.hiddenRecents }

def keepRecent : Nat := 50

/-- `ORDER BY updated_at DESC, rowid DESC LIMIT keep`. -/
def recentIds (db : Db) (keep : Nat) : List SnapshotId :=
  let newer (a b : SnapshotId × SnapshotRow) : Bool :=
    b.2.updatedAt < a.2.updatedAt || (b.2.updatedAt = a.2.updatedAt && b.2.rowid ≤ a.2.rowid)
  (((db.snapshots.entries.map fun e => (e.1, e.2)).mergeSort newer).take keep).map (·.1)

/-- The states that hold on to their snapshot. -/
def pending (s : OutboxState) : Bool := s = .prepared || s = .inFlight || s = .unknownOutcome

/-- The snapshots `prune` removes: not among the recent ones, without an unpublished draft, and not
under an operation that is still pending. -/
def doomed (db : Db) (keep : Nat) (id : SnapshotId) : Bool :=
  id ∉ recentIds db keep && !(db.drafts.rows.any fun d => d.snapshotId = id && !d.published) &&
    !(db.outbox.rows.any fun o => pending o.state && o.data.prepared.snapshot = id)

def prune (db : Db) (keep : Nat) : Db :=
  let gone := (db.snapshots.keys.filter fun id => doomed db keep id)
  { db with
    snapshots := db.snapshots.restrict fun id _ => id ∉ gone
    drafts := db.drafts.restrict fun _ d => d.snapshotId ∉ gone
    views := db.views.restrict fun id _ => id ∉ gone
    hiddenRecents := db.hiddenRecents.restrict fun id _ => id ∉ gone
    -- `ON DELETE CASCADE`
    snapshotBlame := db.snapshotBlame.restrict fun k _ => k.snapshotId ∉ gone }

/-! ## Drafts -/

def i64Max : Nat := 9223372036854775807

/-- What an existing row lets a draft write do to it. -/
def saveOver (old d : Draft) : Except String Unit :=
  if old.snapshot ≠ d.snapshot ∨ old.file ≠ d.file ∨ old.side ≠ d.side ∨
      old.startLine ≠ d.startLine ∨ old.line ≠ d.line ∨ old.published then
    .error "a draft's source identity and published state cannot be rewritten"
  else if old.version > d.version then
    .error "the draft write is stale; the newer text remains stored"
  else if old.version = d.version ∧ old.body ≠ d.body then
    .error "draft text differs for the existing version"
  else .ok ()

/-- The row a save writes; on a conflict the columns of the old row that the statement does not set
stay. -/
def savedRow (old : Option DraftRow) (d : Draft) : DraftRow :=
  match old with
  | some row => { row with version := d.version, data := { d with savedVersion := d.version } }
  | none => { snapshotId := d.snapshot, version := d.version,
              data := { d with savedVersion := d.version }, published := false }

def saveDraft (hashes : Hashes) (db : Db) (d : Draft) : Except String Db :=
  if d.version = 0 ∨ d.version > i64Max ∨ (asBytes d.body).length > 1024 * 1024 then
    .error "draft metadata fails version or size checks"
  else match snapshot hashes db d.snapshot with
    | .error e => .error e
    | .ok s =>
      match s.file d.file with
      | none => .error "draft file is absent"
      | some f =>
        if ¬ d.isFileLevel ∧ ¬ f.eligible d.side d.startLine d.line then
          .error "the draft range does not exist in the frozen patch"
        else
          let old := db.drafts.find d.id
          match (old.map fun row => saveOver row.data d).getD (.ok ()) with
          | .error e => .error e
          | .ok () =>
            if d.published then
              .error "only confirmed outbox evidence may mark a draft published"
            else .ok { db with drafts := db.drafts.put d.id (savedRow old d) }

def discardDraft (db : Db) (id : DraftId) (version : Nat) : Except String Db :=
  match db.drafts.find id with
  | some row =>
    if row.version = version ∧ row.published = false then
      .ok { db with drafts := db.drafts.erase id }
    else .error "the draft changed, is published, or no longer exists"
  | none => .error "the draft changed, is published, or no longer exists"

def drafts (db : Db) (id : SnapshotId) : List Draft :=
  (db.drafts.rows.filter fun row => row.snapshotId = id).map (·.data)

/-! ## Views -/

def saveView (db : Db) (id : SnapshotId) (v : SavedView) : Except String Db :=
  let row : ViewRow := ⟨min v.revision i64Max, v⟩
  match db.views.find id with
  | some old =>
    .ok (if old.revision ≤ row.revision then { db with views := db.views.put id row } else db)
  | none =>
    if (db.snapshots.find id).isNone then .error "FOREIGN KEY constraint failed"
    else .ok { db with views := db.views.put id row }

/-! ## The outbox -/

def insertPrepared (hashes : Hashes) (db : Db) (p : PreparedReview) (rules : ReviewRules) :
    Except String Db :=
  if ¬ p.verify hashes rules then .error "prepared review fingerprint mismatch"
  else
    let e : OutboxEntry := { prepared := p, state := .prepared, baselineReviewIds := [],
                             remoteId := none, diagnostic := none }
    match db.outbox.find p.id with
    | some _ => .error "UNIQUE constraint failed: outbox.id"
    | none => .ok { db with outbox := db.outbox.put p.id ⟨.prepared, e⟩ }

def outbox (db : Db) : List OutboxEntry := db.outbox.rows.map (·.data)

def operation (db : Db) (id : OperationId) : Except String OutboxEntry :=
  match db.outbox.find id with
  | some row => .ok row.data
  | none => .error "Query returned no rows"

/-- One comment of a confirmed review: the draft it came from is published, if its text is still
what was sent. -/
def publishDraft (t : Table DraftId DraftRow) (c : PreparedComment) : Table DraftId DraftRow :=
  match t.find c.draft with
  | none => t
  | some row =>
    if row.data.version = c.version ∧ row.data.body = c.body then
      t.modify row.data.id fun r =>
        { r with published := true, data := { row.data with published := true } }
    else t

def publishDrafts (t : Table DraftId DraftRow) (cs : List PreparedComment) :
    Table DraftId DraftRow :=
  cs.foldl publishDraft t

/-- `write_transition`; without rules the stored review is not verified again. -/
def writeTransition (hashes : Hashes) (db : Db) (e : OutboxEntry) (rules : Option ReviewRules) :
    Except String Db :=
  match db.outbox.find e.prepared.id with
  | none => .error "Query returned no rows"
  | some row =>
    if row.data.prepared.fingerprint ≠ e.prepared.fingerprint ∨
        rules.any (fun r => ¬ e.prepared.verify hashes r) then
      .error "outbox payload changed after preview"
    else if ¬ row.data.state.canTransition e.state then
      .error ("bad outbox move " ++ row.data.state.debug ++ " → " ++ e.state.debug)
    else
      let moved := db.outbox.modify e.prepared.id fun _ => ⟨e.state, e⟩
      if e.state = .confirmed then
        if e.remoteId = none then .error "the confirmed review lacks its remote evidence ID"
        else .ok { db with outbox := moved,
                           drafts := publishDrafts db.drafts e.prepared.comments }
      else .ok { db with outbox := moved }

def transition (hashes : Hashes) (db : Db) (e : OutboxEntry) (rules : ReviewRules) :
    Except String Db :=
  writeTransition hashes db e (some rules)

/-- What `recover_inflight` writes for an entry it finds in flight. -/
def recovered (e : OutboxEntry) : OutboxEntry :=
  { e with state := .unknownOutcome, diagnostic := some ("the process stopped after sending " ++
      "became possible; reconcile before submitting again") }

/-- `recover_inflight` for one operation. -/
def recover (hashes : Hashes) (db : Db) (id : OperationId) : Except String Db :=
  match db.outbox.find id with
  | none => .ok db
  | some row =>
    if row.data.state = .inFlight then writeTransition hashes db (recovered row.data) none
    else .ok db

end Store

/-! ## The store as a system -/

/-- A write of the store with its arguments; `now` is what `unixepoch()` gives there. -/
inductive StoreOp
  | putSnapshot (s : Snapshot) (now : Nat)
  | saveBlame (id : SnapshotId) (key : String) (found : BlameRead) (now : Nat)
  | showRecent (id : SnapshotId) (now : Nat)
  | hideRecent (id : Option SnapshotId)
  | prune (keep : Nat)
  | saveDraft (d : Draft)
  | discardDraft (id : DraftId) (version : Nat)
  | saveView (id : SnapshotId) (v : SavedView)
  | insertPrepared (p : PreparedReview) (rules : ReviewRules)
  | transition (e : OutboxEntry) (rules : ReviewRules)
  | recover (id : OperationId)

namespace Store

def apply (hashes : Hashes) (db : Db) : StoreOp → Except String Db
  | .putSnapshot s now => putSnapshot hashes db s now
  | .saveBlame id key found now => saveBlame db id key found now
  | .showRecent id now => .ok (showRecent db id now)
  | .hideRecent id => .ok (hideRecent db id)
  | .prune keep => .ok (prune db keep)
  | .saveDraft d => saveDraft hashes db d
  | .discardDraft id version => discardDraft db id version
  | .saveView id v => saveView db id v
  | .insertPrepared p rules => insertPrepared hashes db p rules
  | .transition e rules => transition hashes db e rules
  | .recover id => recover hashes db id

/-- An operation that fails is rolled back. -/
def after (hashes : Hashes) (db : Db) (op : StoreOp) : Db :=
  match apply hashes db op with
  | .ok db' => db'
  | .error _ => db

def system (hashes : Hashes) : Lts Db StoreOp := ⟨fun db op => some (after hashes db op)⟩

end Store
end Diffz
