import Diffz.Adapters.Store
import Diffz.Core.Session

/-!
# The drafts of an open review (`crates/ui/src/app/review_flow.rs`)

The application edits the drafts of the active snapshot in memory. Every edit sends a copy to the
store in the background, and the answer comes back later; a discard goes the same way. A task that
was started may be slow, overtake another one, be dropped or fail, so the copies under way are lists
from which any element may go next.

The numbers of the saves and the lists of the saves and the discards that were carried out are a
record of the run, which the code does not keep.
-/

set_option autoImplicit false

namespace Diffz

/-- A copy of a draft on its way to the store. -/
structure PendingSave where
  /-- the number of saves issued before it -/
  issued : Nat
  draft : Draft

structure Flow where
  snapshot : Snapshot
  drafts : Table DraftId Draft
  db : Db
  saves : List PendingSave
  /-- versions the store has taken, on their way back -/
  acks : List (DraftId × Nat)
  /-- discards on their way to the store -/
  discards : List (DraftId × Nat)
  /-- discards the store has carried out, on their way back -/
  gone : List DraftId
  /-- how many saves were issued -/
  issued : Nat
  /-- the saves the store has taken, the last one first -/
  taken : List PendingSave
  /-- the discards that were carried out, each with the number of saves issued by then -/
  discarded : List (DraftId × Nat)

inductive FlowEvent
  /-- text is typed for a selection that has no draft -/
  | compose (id : DraftId) (file : FileId) (side : Side) (startLine line : Nat) (body : String)
  | edit (id : DraftId) (body : String)
  | retrySave (id : DraftId)
  | runSave (k : Nat) (ok : Bool)
  | dropSave (k : Nat)
  | acknowledge (k : Nat)
  | dropAck (k : Nat)
  | discard (id : DraftId)
  | runDiscard (k : Nat) (ok : Bool)
  | dropDiscard (k : Nat)
  | discardDone (k : Nat)
  /-- a write of the outbox -/
  | outbox (op : StoreOp)
  | markConfirmed (e : OutboxEntry)

/-- The operations of the store that the outbox makes. -/
def StoreOp.isOutbox : StoreOp → Bool
  | .insertPrepared _ _ | .transition _ _ | .recover _ => true
  | _ => false

namespace Flow

/-- `save_draft`: the copy goes to the store in the background. -/
def saveDraft (w : Flow) (d : Draft) : Flow :=
  { w with saves := w.saves ++ [⟨w.issued, d⟩], issued := w.issued + 1 }

/-- `edit_draft` of a draft that is there. -/
def editDraft (w : Flow) (id : DraftId) (body : String) : Flow :=
  match w.drafts.find id with
  | none => w
  | some d =>
    match Session.editDraft d body with
    | .ok (true, d') => { w with drafts := w.drafts.put id d' }.saveDraft d'
    | _ => w

/-- A draft without text, as `edit_draft` starts it for a selection. -/
def emptyDraft (snapshot : SnapshotId) (id : DraftId) (file : FileId) (side : Side)
    (startLine line : Nat) : Draft :=
  { id, snapshot, file, side, startLine, line
    fileLevel := side = .right ∧ startLine = 0 ∧ line = 0
    body := "", version := 0, savedVersion := 0, published := false }

/-- Whether a comment can be made on the selection. -/
def commentable (s : Snapshot) (d : Draft) : Bool :=
  if d.fileLevel then (s.file d.file).isSome
  else (s.file d.file).any fun f => f.eligible d.side d.startLine d.line

/-- `fresh_id` gives an id nobody has seen. -/
def isFresh (w : Flow) (id : DraftId) : Bool :=
  (w.drafts.find id).isNone && (w.db.drafts.find id).isNone && w.saves.all (·.draft.id ≠ id) &&
    w.acks.all (·.1 ≠ id) && w.discards.all (·.1 ≠ id) && id ∉ w.gone &&
    w.discarded.all (·.1 ≠ id)

/-- `mark_confirmed_drafts_published`. -/
def markConfirmed (w : Flow) (e : OutboxEntry) : Flow :=
  if e.state = .confirmed ∧ w.snapshot.id = e.prepared.snapshot then
    { w with drafts := e.prepared.comments.foldl (fun t c => t.modify c.draft fun d =>
        if d.version = c.version then { d with published := true } else d) w.drafts }
  else w

def step (hashes : Hashes) (w : Flow) : FlowEvent → Option Flow
  | .compose id file side startLine line body =>
    let d := emptyDraft w.snapshot.id id file side startLine line
    if ¬ isBlank body ∧ w.isFresh id ∧ commentable w.snapshot d then
      some ({ w with drafts := w.drafts.put id d }.editDraft id body)
    else none
  | .edit id body => some (w.editDraft id body)
  | .retrySave id =>
    match w.drafts.find id with
    | some d => if d.isSaved then none else some (w.saveDraft d)
    | none => none
  | .runSave k ok =>
    match w.saves[k]? with
    | none => none
    | some s =>
      let w' := { w with saves := w.saves.eraseIdx k }
      match ok, Store.saveDraft hashes w.db s.draft with
      | true, .ok db =>
        some { w' with
          db
          acks := w.acks ++ [(s.draft.id, s.draft.version)]
          taken := s :: w.taken }
      | _, _ => some w'
  | .dropSave k => if k < w.saves.length then some { w with saves := w.saves.eraseIdx k } else none
  | .acknowledge k =>
    match w.acks[k]? with
    | none => none
    | some (id, version) =>
      some { w with
        acks := w.acks.eraseIdx k
        drafts := w.drafts.modify id fun d => Session.acknowledgeSave d version }
  | .dropAck k => if k < w.acks.length then some { w with acks := w.acks.eraseIdx k } else none
  | .discard id =>
    match w.drafts.find id with
    | some d =>
      if d.isSaved then some { w with discards := w.discards ++ [(id, d.version)] } else none
    | none => none
  | .runDiscard k ok =>
    match w.discards[k]? with
    | none => none
    | some (id, version) =>
      let w' := { w with discards := w.discards.eraseIdx k }
      match ok, Store.discardDraft w.db id version with
      | true, .ok db =>
        some { w' with db, gone := w.gone ++ [id], discarded := (id, w.issued) :: w.discarded }
      | _, _ => some w'
  | .dropDiscard k =>
    if k < w.discards.length then some { w with discards := w.discards.eraseIdx k } else none
  | .discardDone k =>
    match w.gone[k]? with
    | none => none
    | some id => some { w with gone := w.gone.eraseIdx k, drafts := w.drafts.erase id }
  | .outbox op => if op.isOutbox then some { w with db := Store.after hashes w.db op } else none
  | .markConfirmed e => some (w.markConfirmed e)

def system (hashes : Hashes) : Lts Flow FlowEvent := ⟨step hashes⟩

/-- A review just opened: its drafts are those of the store, as the store has saved them. -/
structure Opened (w : Flow) : Prop where
  loaded : ∀ id d, w.drafts.find id = some d → ∃ row, w.db.drafts.find id = some row ∧ row.data = d
  columns : ∀ id row, w.db.drafts.find id = some row →
    row.data.id = id ∧ row.version = row.data.version ∧ row.published = row.data.published ∧
      row.snapshotId = row.data.snapshot ∧ row.data.savedVersion = row.data.version
  saves : w.saves = []
  acks : w.acks = []
  discards : w.discards = []
  gone : w.gone = []
  taken : w.taken = []
  discarded : w.discarded = []

end Flow
end Diffz
