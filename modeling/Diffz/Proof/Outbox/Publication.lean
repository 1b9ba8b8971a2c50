import Diffz.Adapters.Service
import Diffz.Proof.Store.Prune

/-!
# A publication goes through

`publish` stops at the first thing it finds wrong. Where nothing is wrong, and the remote still shows
the target that was previewed, the calls of a publication take it to the request, with the row of the
operation moved to `InFlight`.
-/

set_option autoImplicit false

namespace Diffz
namespace Proof

open Outbox

variable {hashes : Hashes} {services : Services} {w : World} {t : Nat} {o : Outbox}
  {p : PreparedReview} {db : Db} {e : OutboxEntry}

/-! ## Calls on the store -/

section

attribute [local simp] World.system World.step World.call World.committed

theorem prune_step (hw : w.phase = .opening [])
    (h : w.db.snapshots.keys.length ≤ Store.keepRecent) :
    (World.system hashes services).step w (.prune true) = some { w with phase := .running } := by
  simp [hw, prune_few h]

theorem saveDraft_step {d : Draft} (hw : w.phase = .running)
    (hdb : Store.saveDraft hashes w.db d = .ok db) :
    (World.system hashes services).step w (.saveDraft d true) = some { w with db } := by
  simp [hw, hdb]

theorem insertPrepared_step {rules : ReviewRules} (hw : w.phase = .running)
    (hv : p.verify hashes rules = true) (hnew : w.db.outbox.find p.id = none) :
    (World.system hashes services).step w (.insertPrepared rules p true) = some
      { w with db := { w.db with outbox := w.db.outbox.put p.id ⟨.prepared, newEntry p⟩ } } := by
  simp [hw, Store.insertPrepared, hv, hnew, newEntry]

theorem openStore_step {order : List OperationId} (hw : w.phase = .closed)
    (h : order.Perm w.db.outbox.keys) :
    (World.system hashes services).step w (.openStore order) = some
      { w with phase := .opening (order.filterMap fun id =>
        (w.db.outbox.find id).map OutboxRow.data) } := by
  simp [hw, h]

/-- A write that leads to another state than `Confirmed` replaces the row. -/
theorem writeTransition_of_row {row : OutboxRow} (hrow : db.outbox.find e.prepared.id = some row)
    (hfp : row.data.prepared.fingerprint = e.prepared.fingerprint)
    (hallowed : row.data.state.canTransition e.state = true) (hst : e.state ≠ .confirmed) :
    Store.writeTransition hashes db e none =
      .ok { db with outbox := db.outbox.put e.prepared.id ⟨e.state, e⟩ } := by
  simp [Store.writeTransition, hrow, hfp, hallowed, hst, Table.modify]

/-- An entry that was in flight is written as one whose outcome is unknown. -/
theorem recover_step {rest : List OutboxEntry} (hw : w.phase = .opening (e :: rest))
    (hst : e.state = .inFlight)
    (hdb : Store.writeTransition hashes w.db (Store.recovered e) none = .ok db) :
    (World.system hashes services).step w (.recover true) =
      some { w with db, phase := .opening rest } := by
  simp [hw, World.recoverOne, hst, hdb]

/-- A confirmed review publishes its drafts. -/
theorem writeTransition_confirmed {row : OutboxRow} {id : Nat}
    (hrow : db.outbox.find e.prepared.id = some row)
    (hfp : row.data.prepared.fingerprint = e.prepared.fingerprint)
    (hallowed : row.data.state.canTransition .confirmed = true) (hst : e.state = .confirmed)
    (hid : e.remoteId = some id) : Store.writeTransition hashes db e none =
      .ok { db with outbox := db.outbox.put e.prepared.id ⟨.confirmed, e⟩,
                    drafts := Store.publishDrafts db.drafts e.prepared.comments } := by
  simp [Store.writeTransition, hrow, hfp, hallowed, hst, hid, Table.modify]

end

/-! ## Moves of a publication -/

theorem publish_advance {pos : PublishAt} (hw : w.phase = .running)
    (ht : w.threads t = some (.publish o p pos)) (hpos : pos ≠ .lock) (a : Answer) :
    (World.system hashes services).step w (.step t a) =
      (publishMove hashes o.rules w.db p pos a).map
        (w.perform hashes t (some o.gate) (.publish o p)) := by
  simp only [World.system, World.step, hw, World.advance, ht]

theorem read_move {rules : ReviewRules}
    (hrow : db.outbox.find p.id = some ⟨.prepared, newEntry p⟩)
    (hv : p.verify hashes rules = true) : publishMove hashes rules db p .read .done =
      some (.goto (.unresolved (newEntry p))) := by
  simp [publishMove, Store.operation, hrow, newEntry, hv]

theorem read_step (hw : w.phase = .running) (ht : w.threads t = some (.publish o p .read))
    (hrow : w.db.outbox.find p.id = some ⟨.prepared, newEntry p⟩)
    (hv : p.verify hashes o.rules = true) :
    (World.system hashes services).step w (.step t .done) =
      some (w.goto t (.publish o p (.unresolved (newEntry p)))) := by
  rw [publish_advance hw ht (by simp), read_move hrow hv]
  rfl

/-- A write of a verified review goes as one that does not verify it. -/
theorem write_step (services : Services) {pos : PublishAt} {next : Option PublishAt}
    (hw : w.phase = .running) (ht : w.threads t = some (.publish o p pos)) (hpos : pos ≠ .lock)
    (hm : publishMove hashes o.rules w.db p pos .done = some (.write o.rules e next))
    (hv : e.prepared.verify hashes o.rules = true)
    (hdb : Store.writeTransition hashes w.db e none = .ok db) :
    (World.system hashes services).step w (.step t .done) = some (next.elim
      ({ w with db }.leave t (some o.gate) .free) fun next =>
        { w with db }.goto t (.publish o p next)) := by
  have hwrite : Store.transition hashes w.db e o.rules = .ok db := by
    rw [← hdb]
    simp [Store.transition, Store.writeTransition, hv]
  rw [publish_advance hw ht hpos, hm, Option.map_some, World.perform, hwrite]
  cases next with
  | none => rfl
  | some next => rfl

/-! ## Up to the request -/

/-- Nothing stands in the way of a publication by thread `t`. -/
structure Unobstructed (hashes : Hashes) (w : World) (t : Nat) (o : Outbox) (p : PreparedReview) :
    Prop where
  running : w.phase = .running
  idle : w.threads t = none
  free : w.gates o.gate = .free
  inserted : w.db.outbox.find p.id = some ⟨.prepared, newEntry p⟩
  verified : p.verify hashes o.rules = true
  alone : blocked w.db p = false
  saved : draftsSaved w.db p = true
  current : p.target.isOpen = true ∧ p.target.pendingReview = false

/-- The entry that is written before the request; there is no review on the remote yet. -/
def markedEntry (p : PreparedReview) : OutboxEntry := marked (baseline (newEntry p) [])

/-- The calls of a publication up to the write that precedes the request. -/
def publication (t : Nat) (o : Outbox) (p : PreparedReview) : List Event :=
  [.publish t o p, .step t .done, .step t .done, .step t .done, .step t (.target p.target),
    .step t .done, .step t (.reviews []), .step t (.target p.target), .step t .done]

/-- In `w'` the publication stands at `pos`; otherwise it is like `w`. -/
structure StandsAt (w : World) (t : Nat) (o : Outbox) (p : PreparedReview) (pos : PublishAt)
    (w' : World) : Prop where
  running : w'.phase = .running
  thread : w'.threads t = some (.publish o p pos)
  db : w'.db = w.db
  sent : w'.sent = w.sent
  discarded : w'.discarded = w.discarded

theorem StandsAt.move (services : Services) {w' : World} {pos next : PublishAt} {a : Answer}
    (h : StandsAt w t o p pos w') (hpos : pos ≠ .lock)
    (hm : publishMove hashes o.rules w.db p pos a = some (.goto next)) :
    ∃ w'', (World.system hashes services).step w' (.step t a) = some w'' ∧
      StandsAt w t o p next w'' := by
  refine ⟨w'.goto t (.publish o p next), ?_, ?_⟩
  · rw [publish_advance h.running h.thread hpos, h.db, hm]
    rfl
  · exact ⟨h.running, Function.update_self .., h.db, h.sent, h.discarded⟩

/-- `w` after the write that precedes the request. -/
def markedWorld (w : World) (p : PreparedReview) : World :=
  { w with db := { w.db with outbox := w.db.outbox.put p.id ⟨.inFlight, markedEntry p⟩ } }

/-- **A publication that meets no obstacle gets to its request.** -/
theorem publication_marks (services : Services) (h : Unobstructed hashes w t o p) :
    ∃ w', (World.system hashes services).Steps (fun _ _ => True) w (publication t o p) w' ∧
      StandsAt (markedWorld w p) t o p (.send (markedEntry p)) w' := by
  let locked := w.goto t (.publish o p .lock)
  have hcalled : (World.system hashes services).step w (.publish t o p) = some locked := by
    simp [World.system, World.step, h.running, World.call, h.idle, locked]
  let reading : World := { locked.goto t (.publish o p .read) with
    gates := Function.update w.gates o.gate (.held t) }
  have hlocked : (World.system hashes services).step locked (.step t .done) = some reading := by
    simp [World.system, World.step, h.running, World.advance, World.goto, h.free, locked, reading]
  have hreading : StandsAt w t o p .read reading :=
    ⟨h.running, Function.update_self .., rfl, rfl, rfl⟩
  have halone : publishMove hashes o.rules w.db p (.unresolved (newEntry p)) .done =
      some (.goto (.current (newEntry p))) := by
    simp [publishMove, h.alone]
  have hcurrent : publishMove hashes o.rules w.db p (.current (newEntry p)) (.target p.target) =
      some (.goto (.drafts (newEntry p))) := by
    simp [publishMove, h.current]
  have hsaved : publishMove hashes o.rules w.db p (.drafts (newEntry p)) .done =
      some (.goto (.reviews (newEntry p))) := by
    simp [publishMove, h.saved]
  have hreviews : publishMove hashes o.rules w.db p (.reviews (newEntry p)) (.reviews []) =
      some (.goto (.recheck (baseline (newEntry p) []))) := rfl
  have hrecheck : publishMove hashes o.rules w.db p (.recheck (baseline (newEntry p) []))
      (.target p.target) = some (.goto (.mark (markedEntry p))) := by
    simp [publishMove, markedEntry]
  obtain ⟨w₁, hs₁, hw₁⟩ := hreading.move services (by simp)
    (read_move h.inserted h.verified)
  obtain ⟨w₂, hs₂, hw₂⟩ := hw₁.move services (by simp) halone
  obtain ⟨w₃, hs₃, hw₃⟩ := hw₂.move services (by simp) hcurrent
  obtain ⟨w₄, hs₄, hw₄⟩ := hw₃.move services (by simp) hsaved
  obtain ⟨w₅, hs₅, hw₅⟩ := hw₄.move services (by simp) hreviews
  obtain ⟨w₆, hs₆, hw₆⟩ := hw₅.move services (by simp) hrecheck
  have hs₇ := write_step services hw₆.running hw₆.thread (by simp) rfl h.verified
    (writeTransition_of_row (hw₆.db ▸ h.inserted) rfl rfl (by simp [markedEntry, marked]))
  refine ⟨_, .cons trivial hcalled <| .cons trivial hlocked <| .cons trivial hs₁ <|
    .cons trivial hs₂ <| .cons trivial hs₃ <| .cons trivial hs₄ <| .cons trivial hs₅ <|
    .cons trivial hs₆ <| .cons trivial hs₇ .nil, ?_⟩
  exact ⟨hw₆.running, Function.update_self .., hw₆.db ▸ rfl, hw₆.sent, hw₆.discarded⟩

/-- The request is made with the review that was published. -/
theorem publication_sends (services : Services) (h : Unobstructed hashes w t o p) :
    ∃ w', (World.system hashes services).Steps (fun _ _ => True) w
        (publication t o p ++ [.step t .done]) w' ∧
      StandsAt { markedWorld w p with sent := p :: w.sent } t o p (.sending (markedEntry p)) w' := by
  obtain ⟨w₁, hs, hw₁⟩ := publication_marks services h
  have hsend : (World.system hashes services).step w₁ (.step t .done) =
      some { w₁.goto t (.publish o p (.sending (markedEntry p))) with sent := p :: w₁.sent } := by
    rw [publish_advance hw₁.running hw₁.thread (by simp)]
    rfl
  refine ⟨_, hs.append (.cons trivial hsend .nil), hw₁.running, Function.update_self .., hw₁.db, ?_,
    hw₁.discarded⟩
  exact congrArg (p :: ·) hw₁.sent

/-- The last write ends the call. -/
theorem StandsAt.finish (services : Services) {w' : World} (h : StandsAt w t o p (.finish e) w')
    (hv : e.prepared.verify hashes o.rules = true)
    (hdb : Store.writeTransition hashes w.db e none = .ok db) :
    ∃ w'', (World.system hashes services).step w' (.step t .done) = some w'' ∧
      w''.phase = .running ∧ w''.db = db ∧ w''.sent = w.sent ∧ w''.discarded = w.discarded := by
  rw [← h.db] at hdb
  exact ⟨_, write_step services h.running h.thread (by simp) rfl hv hdb, h.running, rfl, h.sent,
    h.discarded⟩

end Proof
end Diffz
