import Diffz.Proof.Outbox.Step

/-!
# Rows, threads and entries across one step

Three views of a change, each of which an invariant uses alone: what happened to the row of one
operation (`RowStep`, with who wrote it), how a thread came to where it stands (`Arrives`), and
where an entry that some thread has in hand comes from (`InHand`).
-/

set_option autoImplicit false

namespace Diffz
namespace Proof

open Diffz.Outbox (PublishAt ReconcileAt Answer Move)

variable {hashes : Hashes} {services : Services} {w w' : World} {ev : Event}

/-! ## Entries in hand -/

/-- The entry a position of `publish` holds. -/
def publishEntry : PublishAt → Option OutboxEntry
  | .lock | .read => none
  | .unresolved e | .current e | .refuse e | .drafts e | .reviews e | .recheck e | .mark e
  | .send e | .sending e | .verify e _ | .finish e => some e

/-- The entry a position of `reconcile` holds. -/
def reconcileEntry : ReconcileAt → Option OutboxEntry
  | .find | .read _ => none
  | .account _ e | .reviews _ e | .scan _ e _ _ | .confirm _ e => some e

/-- The entries that a thread, or the recovery, may still write. -/
inductive InHand (w : World) : OutboxEntry → Prop
  | publish {t : Nat} {o : Outbox} {p : PreparedReview} {pos : PublishAt} {e : OutboxEntry}
      (ht : w.threads t = some (.publish o p pos)) (he : publishEntry pos = some e) : InHand w e
  | reconcile {t : Nat} {id : OperationId} {pos : ReconcileAt} {e : OutboxEntry}
      (ht : w.threads t = some (.reconcile id pos)) (he : reconcileEntry pos = some e) : InHand w e
  | recover {todo : List OutboxEntry} {e : OutboxEntry} (hp : w.phase = .opening todo)
      (he : e ∈ todo) : InHand w e

/-- Who writes an entry. -/
inductive Writer (w : World) (ev : Event) (e : OutboxEntry) : Prop
  | outside {rules : ReviewRules} {ok : Bool} (hev : ev = .transition rules e ok)
  | refuse {t : Nat} {o : Outbox} {p : PreparedReview}
      (ht : w.threads t = some (.publish o p (.refuse e)))
  | mark {t : Nat} {o : Outbox} {p : PreparedReview}
      (ht : w.threads t = some (.publish o p (.mark e)))
  | finish {t : Nat} {o : Outbox} {p : PreparedReview}
      (ht : w.threads t = some (.publish o p (.finish e)))
  | confirm {t : Nat} {id : OperationId} {rules : ReviewRules}
      (ht : w.threads t = some (.reconcile id (.confirm rules e)))
  | recover {e₀ : OutboxEntry} {rest : List OutboxEntry} (hp : w.phase = .opening (e₀ :: rest))
      (he : e = Store.recovered e₀)

/-- What is written was in hand, unless it came from outside. -/
theorem Writer.inHand {e : OutboxEntry} (h : Writer w ev e) :
    (∃ rules ok, ev = .transition rules e ok) ∨ ∃ e₀, InHand w e₀ ∧ e.prepared = e₀.prepared := by
  cases h with
  | outside hev => exact .inl ⟨_, _, hev⟩
  | refuse ht => exact .inr ⟨e, .publish ht rfl, rfl⟩
  | mark ht => exact .inr ⟨e, .publish ht rfl, rfl⟩
  | finish ht => exact .inr ⟨e, .publish ht rfl, rfl⟩
  | confirm ht => exact .inr ⟨e, .reconcile ht rfl, rfl⟩
  | recover hp he =>
    subst he
    exact .inr ⟨_, .recover hp List.mem_cons_self, rfl⟩

/-! ## Rows -/

/-- **The ways a row goes on.** -/
inductive RowStep (hashes : Hashes) (w : World) (ev : Event) (w' : World) (id : OperationId) :
    Option OutboxRow → Option OutboxRow → Prop
  | same {r : Option OutboxRow} : RowStep hashes w ev w' id r r
  | inserted {rules : ReviewRules} {p : PreparedReview} {ok : Bool}
      (hev : ev = .insertPrepared rules p ok) (hid : p.id = id) (hv : p.verify hashes rules) :
      RowStep hashes w ev w' id none (some ⟨.prepared, newEntry p⟩)
  | moved {row : OutboxRow} {e : OutboxEntry} (hid : e.prepared.id = id)
      (hm : Moved w.db e w'.db row) (hw : Writer w ev e) :
      RowStep hashes w ev w' id (some row) (some ⟨e.state, e⟩)

theorem rowStep_of_moved {e : OutboxEntry} {row : OutboxRow} (hm : Moved w.db e w'.db row)
    (hw : Writer w ev e) (id : OperationId) :
    RowStep hashes w ev w' id (w.db.outbox.find id) (w'.db.outbox.find id) := by
  rw [hm.find]
  by_cases hid : id = e.prepared.id
  · rw [if_pos hid, hid, hm.found]
    exact .moved rfl hm hw
  · rw [if_neg hid]
    exact .same

theorem saveDraft_outbox {db db' : Db} {d : Draft} (h : Store.saveDraft hashes db d = .ok db') :
    db'.outbox = db.outbox := by
  unfold Store.saveDraft at h
  dsimp only at h
  repeat' split at h
  all_goals
    cases h
  rfl

theorem discardDraft_outbox {db db' : Db} {x : DraftId} {v : Nat}
    (h : Store.discardDraft db x v = .ok db') : db'.outbox = db.outbox := by
  unfold Store.discardDraft at h
  repeat' split at h
  all_goals
    cases h
  rfl

/-- **What a change does to the row of one operation.** -/
theorem Change.row (h : Change hashes services w ev w') (id : OperationId) :
    RowStep hashes w ev w' id (w.db.outbox.find id) (w'.db.outbox.find id) := by
  cases h with
  | saved hs =>
    rw [← saveDraft_outbox hs]
    exact .same
  | discarded hd =>
    rw [← discardDraft_outbox hd]
    exact .same
  | inserted hi =>
    obtain ⟨hv, hn, rfl⟩ := insertPrepared_ok hi
    dsimp only
    rw [Table.find_put]
    split
    · rename_i hid
      rw [hid, hn]
      exact .inserted rfl rfl hv
    · exact .same
  | moved hm => exact rowStep_of_moved hm (.outside rfl) id
  | marked ht hm => exact rowStep_of_moved hm (.mark ht) id
  | ended ht hpos hm =>
    rcases hpos with rfl | rfl
    · exact rowStep_of_moved hm (.refuse ht) id
    · exact rowStep_of_moved hm (.finish ht) id
  | confirmed ht hm => exact rowStep_of_moved hm (.confirm ht) id
  | recovered hp hm => exact rowStep_of_moved hm (.recover hp rfl) id
  | _ => exact .same

/-! ## Threads -/

section Threads

variable {t u : Nat} {th : Thread}

/-- **How a thread came to where it stands.** -/
inductive Arrives (hashes : Hashes) (w : World) (ev : Event) (w' : World) (t : Nat) : Thread → Prop
  | lock {o : Outbox} {p : PreparedReview} (hev : ev = .publish t o p) :
      Arrives hashes w ev w' t (.publish o p .lock)
  | read {o : Outbox} {p : PreparedReview} (ht : w.threads t = some (.publish o p .lock))
      (hdb : w'.db = w.db) (hg : w'.gates o.gate = .held t) :
      Arrives hashes w ev w' t (.publish o p .read)
  | goto {o : Outbox} {p : PreparedReview} {pos next : PublishAt}
      (ht : w.threads t = some (.publish o p pos))
      (hm : PublishStep hashes o.rules w.db p pos (.goto next)) (hdb : w'.db = w.db)
      (hs : w'.sent = w.sent) : Arrives hashes w ev w' t (.publish o p next)
  | send {o : Outbox} {p : PreparedReview} {e : OutboxEntry} {row : OutboxRow} {a : Answer}
      (hev : ev = .step t a) (ht : w.threads t = some (.publish o p (.mark e)))
      (hm : Moved w.db e w'.db row) (hs : w'.sent = w.sent) :
      Arrives hashes w ev w' t (.publish o p (.send e))
  | sending {o : Outbox} {p : PreparedReview} {e : OutboxEntry}
      (ht : w.threads t = some (.publish o p (.send e))) (hdb : w'.db = w.db) :
      Arrives hashes w ev w' t (.publish o p (.sending e))
  | find {id : OperationId} {pos : ReconcileAt} (hpos : pos = .find ∨ ∃ r, pos = .read r) :
      Arrives hashes w ev w' t (.reconcile id pos)
  | seek {id : OperationId} {pos next : ReconcileAt} (ht : w.threads t = some (.reconcile id pos))
      (hm : ReconcileStep w.db id pos (.goto next)) (hdb : w'.db = w.db) :
      Arrives hashes w ev w' t (.reconcile id next)

/-- After `goto`, a thread is the one that went there or stood there before. -/
theorem of_update_some {f : Nat → Option Thread} {x : Thread}
    (h : Function.update f t (some x) u = some th) : (u = t ∧ th = x) ∨ f u = some th := by
  rw [Function.update_apply] at h
  split at h
  · rename_i hu
    cases h
    exact .inl ⟨hu, rfl⟩
  · exact .inr h

/-- After `leave`, a thread stood there before. -/
theorem of_update_none {f : Nat → Option Thread} (h : Function.update f t none u = some th) :
    f u = some th := by
  rw [Function.update_apply] at h
  split at h
  · cases h
  · exact h

theorem Change.thread (h : Change hashes services w ev w') (hu : w'.threads u = some th) :
    w.threads u = some th ∨ Arrives hashes w ev w' u th := by
  cases h with
  | publish hn =>
    rcases of_update_some hu with ⟨rfl, rfl⟩ | hold
    · exact .inr (.lock rfl)
    · exact .inl hold
  | reconcile hn hpos =>
    rcases of_update_some hu with ⟨rfl, rfl⟩ | hold
    · exact .inr (.find hpos)
    · exact .inl hold
  | locked ht hg =>
    rcases of_update_some hu with ⟨rfl, rfl⟩ | hold
    · exact .inr (.read ht rfl (Function.update_self ..))
    · exact .inl hold
  | went ht hm =>
    rcases of_update_some hu with ⟨rfl, rfl⟩ | hold
    · exact .inr (.goto ht hm rfl rfl)
    · exact .inl hold
  | marked ht hm =>
    rcases of_update_some hu with ⟨rfl, rfl⟩ | hold
    · exact .inr (.send rfl ht hm rfl)
    · exact .inl hold
  | sent ht =>
    rcases of_update_some hu with ⟨rfl, rfl⟩ | hold
    · exact .inr (.sending ht rfl)
    · exact .inl hold
  | sought ht hm =>
    rcases of_update_some hu with ⟨rfl, rfl⟩ | hold
    · exact .inr (.seek ht hm rfl)
    · exact .inl hold
  | left ht => exact .inl (of_update_none hu)
  | ended ht hpos hm => exact .inl (of_update_none hu)
  | confirmed ht hm => exact .inl (of_update_none hu)
  | crashed => cases hu
  | _ => exact .inl hu

/-- `remote.send` is called by a thread at `send`, which goes on from there. -/
theorem Change.calls (h : Change hashes services w ev w') :
    w'.sent = w.sent ∨ ∃ t o p e, w.threads t = some (.publish o p (.send e)) ∧
      w'.threads t = some (.publish o p (.sending e)) ∧ w'.sent = p :: w.sent := by
  cases h with
  | sent ht => exact .inr ⟨_, _, _, _, ht, Function.update_self .., rfl⟩
  | _ => exact .inl rfl

/-- **The ways a gate goes on.** -/
inductive GateStep (w w' : World) (n : Nat) : Prop
  | same (h : w'.gates n = w.gates n)
  | taken (h : w.gates n = .free)
  | dropped {t : Nat} {th : Thread} (ht : w.threads t = some th) (hn : World.gateOf th = some n)
      (hgone : w'.threads t = none)
  | crashed (h : ∀ t, w'.threads t = none)

theorem gateStep_leave {gate : Option Nat} {g : Gate} {db : Db} (ht : w.threads t = some th)
    (hg : World.gateOf th = gate) (n : Nat) : GateStep w ({ w with db }.leave t gate g) n := by
  cases gate with
  | none => exact .same rfl
  | some m =>
    by_cases hn : n = m
    · subst hn
      exact .dropped ht hg (Function.update_self ..)
    · exact .same (Function.update_of_ne hn ..)

theorem Change.gate (h : Change hashes services w ev w') (n : Nat) : GateStep w w' n := by
  cases h with
  | locked ht hg =>
    rename_i o p
    by_cases hn : n = o.gate
    · subst hn
      exact .taken hg
    · exact .same (Function.update_of_ne hn ..)
  | left ht =>
    show GateStep w (({ w with db := w.db } : World).leave _ _ _) n
    exact gateStep_leave ht rfl n
  | ended ht hpos hm =>
    refine gateStep_leave ht (gateOf_publish ?_) n
    rcases hpos with rfl | rfl <;> intro hl <;> cases hl
  | confirmed ht hm => exact gateStep_leave ht rfl n
  | crashed => exact .crashed fun _ => rfl
  | _ => exact .same rfl

end Threads

/-! ## Where an entry in hand comes from -/

/-- The entry after a move of `publish` has just been read and compared, or is the one before. -/
theorem publishStep_entry {rules : ReviewRules} {db : Db} {p : PreparedReview}
    {pos next : PublishAt} {e : OutboxEntry} (h : PublishStep hashes rules db p pos (.goto next))
    (he : publishEntry next = some e) :
    (Store.operation db p.id = .ok e ∧ e.prepared.fingerprint = p.fingerprint ∧
      p.verify hashes rules) ∨ ∃ e₀, publishEntry pos = some e₀ ∧ e.prepared = e₀.prepared := by
  cases h with
  | read hop hst hfp hv =>
    cases he
    exact .inl ⟨hop, hfp, hv⟩
  | answered =>
    -- The outcome of `send` decides which position comes next.
    rename_i e₀ o
    refine .inr ⟨e₀, rfl, ?_⟩
    cases o with
    | accepted response =>
      unfold Outbox.sent at he
      dsimp only at he
      split at he <;> cases he <;> rfl
    | rejected code =>
      cases he
      rfl
    | unknown reason =>
      cases he
      rfl
  | verified =>
    cases he
    refine .inr ⟨_, rfl, ?_⟩
    unfold Outbox.verified
    split <;> rfl
  | _ =>
    cases he
    exact .inr ⟨_, rfl, rfl⟩

theorem reconcileStep_entry {db : Db} {id : OperationId} {pos next : ReconcileAt} {e : OutboxEntry}
    (h : ReconcileStep db id pos (.goto next)) (he : reconcileEntry next = some e) :
    Store.operation db id = .ok e ∨
      ∃ e₀, reconcileEntry pos = some e₀ ∧ e.prepared = e₀.prepared := by
  cases h with
  | found => cases he
  | read hop hst =>
    cases he
    exact .inl hop
  | _ =>
    cases he
    exact .inr ⟨_, rfl, rfl⟩

theorem operation_ok {db : Db} {id : OperationId} {e : OutboxEntry}
    (h : Store.operation db id = .ok e) : ∃ row, db.outbox.find id = some row ∧ row.data = e := by
  unfold Store.operation at h
  split at h
  · rename_i row hrow
    cases h
    exact ⟨row, hrow, rfl⟩
  · cases h

/-- **An entry in hand was in hand before, up to its outcome, or has just been read.** -/
theorem Change.inHand {e : OutboxEntry} (h : Change hashes services w ev w') (he : InHand w' e) :
    (∃ e₀, InHand w e₀ ∧ e.prepared = e₀.prepared) ∨
      ∃ id row, w.db.outbox.find id = some row ∧ row.data = e := by
  cases he with
  | publish ht he =>
    rcases h.thread ht with hold | harr
    · exact .inl ⟨e, .publish hold he, rfl⟩
    cases harr with
    | lock => cases he
    | read => cases he
    | goto hbefore hm =>
      rcases publishStep_entry hm he with ⟨hop, -⟩ | ⟨e₀, he₀, hp⟩
      · exact .inr ⟨_, operation_ok hop⟩
      · exact .inl ⟨e₀, .publish hbefore he₀, hp⟩
    | send hev hbefore =>
      cases he
      exact .inl ⟨e, .publish hbefore rfl, rfl⟩
    | sending hbefore =>
      cases he
      exact .inl ⟨e, .publish hbefore rfl, rfl⟩
  | reconcile ht he =>
    rcases h.thread ht with hold | harr
    · exact .inl ⟨e, .reconcile hold he, rfl⟩
    cases harr with
    | find hpos => rcases hpos with rfl | ⟨r, rfl⟩ <;> cases he
    | seek hbefore hm =>
      rcases reconcileStep_entry hm he with hop | ⟨e₀, he₀, hp⟩
      · exact .inr ⟨_, operation_ok hop⟩
      · exact .inl ⟨e₀, .reconcile hbefore he₀, hp⟩
  | recover hp he =>
    cases h with
    | opened =>
      cases hp
      obtain ⟨id, -, hdata⟩ := List.mem_filterMap.mp he
      obtain ⟨row, hrow, rfl⟩ := Option.map_eq_some_iff.mp hdata
      exact .inr ⟨id, row, hrow, rfl⟩
    | skipped hp₀ =>
      cases hp
      exact .inl ⟨e, .recover hp₀ (List.mem_cons_of_mem _ he), rfl⟩
    | recovered hp₀ =>
      cases hp
      exact .inl ⟨e, .recover hp₀ (List.mem_cons_of_mem _ he), rfl⟩
    | crashed => cases hp
    | pruned => cases hp
    | closed => cases hp
    | _ => exact .inl ⟨e, .recover hp he, rfl⟩

end Proof
end Diffz
