import Diffz.Adapters.Service
import Diffz.Proof.Store.Writes

/-!
# What one step can do

The inversions every invariant of the outbox goes through: what a move of a thread is, what a
transition writes, and, in `Change`, all the ways the world can go on. After this module no proof
looks into `step` again.
-/

set_option autoImplicit false

namespace Diffz
namespace Proof

open Diffz.Outbox (PublishAt ReconcileAt Answer Move)

variable {hashes : Hashes} {services : Services} {rules : ReviewRules} {db db' : Db}

/-! ## Moves -/

/-- **The moves of `publish`.** Every position but the wait for the gate is left by one of these. -/
inductive PublishStep (hashes : Hashes) (rules : ReviewRules) (db : Db) (p : PreparedReview) :
    PublishAt → Move PublishAt → Prop
  | read {e : OutboxEntry} (hop : Store.operation db p.id = .ok e) (hst : e.state = .prepared)
      (hfp : e.prepared.fingerprint = p.fingerprint) (hv : p.verify hashes rules) :
      PublishStep hashes rules db p .read (.goto (.unresolved e))
  | clear {e : OutboxEntry} (hb : Outbox.blocked db p = false) :
      PublishStep hashes rules db p (.unresolved e) (.goto (.current e))
  | changed {e : OutboxEntry} :
      PublishStep hashes rules db p (.current e) (.goto (.refuse (Outbox.refused e)))
  | unchanged {e : OutboxEntry} : PublishStep hashes rules db p (.current e) (.goto (.drafts e))
  | refuse {e : OutboxEntry} : PublishStep hashes rules db p (.refuse e) (.write rules e none)
  | saved {e : OutboxEntry} (hd : Outbox.draftsSaved db p) :
      PublishStep hashes rules db p (.drafts e) (.goto (.reviews e))
  | listed {e : OutboxEntry} {rs : List Json} :
      PublishStep hashes rules db p (.reviews e) (.goto (.recheck (Outbox.baseline e rs)))
  | again {e : OutboxEntry} :
      PublishStep hashes rules db p (.recheck e) (.goto (.mark (Outbox.marked e)))
  | mark {e : OutboxEntry} :
      PublishStep hashes rules db p (.mark e) (.write rules e (some (.send e)))
  | send {e : OutboxEntry} : PublishStep hashes rules db p (.send e) (.send p (.sending e))
  | answered {e : OutboxEntry} {o : SendOutcome} :
      PublishStep hashes rules db p (.sending e) (.goto (Outbox.sent e o))
  | verified {e : OutboxEntry} {response : Json} {cs : Option (List Json)} :
      PublishStep hashes rules db p (.verify e response)
        (.goto (.finish (Outbox.verified rules p e response cs)))
  | finish {e : OutboxEntry} : PublishStep hashes rules db p (.finish e) (.write rules e none)
  | leave {pos : PublishAt} : PublishStep hashes rules db p pos .leave

theorem publishStep_of_move {p : PreparedReview} {pos : PublishAt} {a : Answer}
    {mv : Move PublishAt} (h : Outbox.publishMove hashes rules db p pos a = some mv) :
    PublishStep hashes rules db p pos mv := by
  unfold Outbox.publishMove at h
  split at h
  · -- `read`: the stored operation has to be the one that was previewed.
    split at h
    · cases h
      exact .leave
    · rename_i e hop
      split at h
      · cases h
        exact .leave
      · rename_i hne
        cases h
        simp only [not_or, not_not] at hne
        exact .read hop hne.1 hne.2.1 hne.2.2
  · split at h
    · cases h
      exact .leave
    · rename_i hb
      cases h
      exact .clear (by simpa using hb)
  · split at h <;> cases h
    · exact .changed
    · exact .unchanged
  · cases h
    exact .refuse
  · split at h
    · rename_i hd
      cases h
      exact .saved hd
    · cases h
      exact .leave
  · cases h
    exact .listed
  · split at h <;> cases h
    · exact .leave
    · exact .again
  · cases h
    exact .mark
  · cases h
    exact .send
  · cases h
    exact .answered
  · cases h
    exact .verified
  · cases h
    exact .verified
  · cases h
    exact .finish
  · cases h
  · cases h
  · cases h
  · cases h
    exact .leave
  · cases h

/-- **The moves of `reconcile`.** -/
inductive ReconcileStep (db : Db) (id : OperationId) : ReconcileAt → Move ReconcileAt → Prop
  | found {rules : ReviewRules} : ReconcileStep db id .find (.goto (.read rules))
  | read {rules : ReviewRules} {e : OutboxEntry} (hop : Store.operation db id = .ok e)
      (hst : e.state = .unknownOutcome) :
      ReconcileStep db id (.read rules) (.goto (.account rules e))
  | account {rules : ReviewRules} {e : OutboxEntry} :
      ReconcileStep db id (.account rules e) (.goto (.reviews rules e))
  | listed {rules : ReviewRules} {e : OutboxEntry} {rs : List Json} :
      ReconcileStep db id (.reviews rules e) (.goto (.scan rules e rs []))
  | scanned {rules : ReviewRules} {e : OutboxEntry} {rest rest' : List Json} {found found' : List Nat} :
      ReconcileStep db id (.scan rules e rest found) (.goto (.scan rules e rest' found'))
  | one {rules : ReviewRules} {e : OutboxEntry} {rest : List Json} {found : List Nat} {n : Nat} :
      ReconcileStep db id (.scan rules e rest found)
        (.goto (.confirm rules (Outbox.reconciled e n)))
  | confirm {rules : ReviewRules} {e : OutboxEntry} :
      ReconcileStep db id (.confirm rules e) (.write rules e none)
  | leave {pos : ReconcileAt} : ReconcileStep db id pos .leave

theorem reconcileStep_of_move {providerFor : ProviderId → Option ReviewRules} {id : OperationId}
    {pos : ReconcileAt} {a : Answer} {mv : Move ReconcileAt}
    (h : Outbox.reconcileMove providerFor db id pos a = some mv) : ReconcileStep db id pos mv := by
  unfold Outbox.reconcileMove at h
  split at h
  · split at h
    · cases h
      exact .leave
    · split at h <;> cases h
      · exact .leave
      · exact .found
  · split at h
    · cases h
      exact .leave
    · rename_i e hop
      split at h
      · cases h
        exact .leave
      · rename_i hst
        cases h
        exact .read hop (not_not.mp hst)
  · split at h <;> cases h
    · exact .leave
    · exact .account
  · cases h
    exact .listed
  · -- One review of the list; it is skipped, or its comments are read.
    split at h
    · cases h
      exact .scanned
    · split at h <;> cases h <;> exact .scanned
    · cases h
      exact .leave
    · cases h
  · split at h <;> cases h
    · exact .one
    · exact .leave
  · cases h
    exact .confirm
  · cases h
  · cases h
    exact .leave
  · cases h

/-! ## The world -/

/-- **All the ways the world goes on.** -/
inductive Change (hashes : Hashes) (services : Services) (w : World) : Event → World → Prop
  | idle {ev : Event} : Change hashes services w ev w
  | saved {d : Draft} {db : Db} (hs : Store.saveDraft hashes w.db d = .ok db) :
      Change hashes services w (.saveDraft d true) { w with db }
  | discarded {x : DraftId} {v : Nat} {ok : Bool} {db : Db}
      (hd : Store.discardDraft w.db x v = .ok db) :
      Change hashes services w (.discardDraft x v ok) { w with db, discarded := x :: w.discarded }
  | shown {s : SnapshotId} {now : Nat} :
      Change hashes services w (.showRecent s now) { w with db := Store.showRecent w.db s now }
  | inserted {rules : ReviewRules} {p : PreparedReview} {ok : Bool} {db : Db}
      (hi : Store.insertPrepared hashes w.db p rules = .ok db) :
      Change hashes services w (.insertPrepared rules p ok) { w with db }
  | moved {rules : ReviewRules} {e : OutboxEntry} {ok : Bool} {db : Db} {row : OutboxRow}
      (hm : Moved w.db e db row) : Change hashes services w (.transition rules e ok) { w with db }
  | publish {t : Nat} {o : Outbox} {p : PreparedReview} (hn : w.threads t = none) :
      Change hashes services w (.publish t o p) (w.goto t (.publish o p .lock))
  | reconcile {t : Nat} {rules : Option ReviewRules} {id : OperationId} {pos : ReconcileAt}
      (hn : w.threads t = none) (hp : pos = .find ∨ ∃ r, pos = .read r) :
      Change hashes services w (.reconcile t rules id) (w.goto t (.reconcile id pos))
  | locked {t : Nat} {a : Answer} {o : Outbox} {p : PreparedReview}
      (ht : w.threads t = some (.publish o p .lock)) (hg : w.gates o.gate = .free) :
      Change hashes services w (.step t a) { w.goto t (.publish o p .read) with
        gates := Function.update w.gates o.gate (.held t) }
  | left {t : Nat} {ev : Event} {th : Thread} {g : Gate} (ht : w.threads t = some th) :
      Change hashes services w ev (w.leave t (World.gateOf th) g)
  | went {t : Nat} {a : Answer} {o : Outbox} {p : PreparedReview} {pos next : PublishAt}
      (ht : w.threads t = some (.publish o p pos))
      (hm : PublishStep hashes o.rules w.db p pos (.goto next)) :
      Change hashes services w (.step t a) (w.goto t (.publish o p next))
  | marked {t : Nat} {a : Answer} {o : Outbox} {p : PreparedReview} {e : OutboxEntry} {db : Db}
      {row : OutboxRow} (ht : w.threads t = some (.publish o p (.mark e)))
      (hm : Moved w.db e db row) :
      Change hashes services w (.step t a) ({ w with db }.goto t (.publish o p (.send e)))
  | ended {t : Nat} {a : Answer} {o : Outbox} {p : PreparedReview} {pos : PublishAt}
      {e : OutboxEntry} {db : Db} {row : OutboxRow} (ht : w.threads t = some (.publish o p pos))
      (hpos : pos = .refuse e ∨ pos = .finish e) (hm : Moved w.db e db row) :
      Change hashes services w (.step t a) ({ w with db }.leave t (some o.gate) .free)
  | sent {t : Nat} {a : Answer} {o : Outbox} {p : PreparedReview} {e : OutboxEntry}
      (ht : w.threads t = some (.publish o p (.send e))) :
      Change hashes services w (.step t a)
        { w.goto t (.publish o p (.sending e)) with sent := p :: w.sent }
  | sought {t : Nat} {a : Answer} {id : OperationId} {pos next : ReconcileAt}
      (ht : w.threads t = some (.reconcile id pos))
      (hm : ReconcileStep w.db id pos (.goto next)) :
      Change hashes services w (.step t a) (w.goto t (.reconcile id next))
  | confirmed {t : Nat} {a : Answer} {id : OperationId} {rules : ReviewRules} {e : OutboxEntry}
      {db : Db} {row : OutboxRow} (ht : w.threads t = some (.reconcile id (.confirm rules e)))
      (hm : Moved w.db e db row) :
      Change hashes services w (.step t a) ({ w with db }.leave t none .free)
  | crashed : Change hashes services w .crash
      { w with phase := .closed, threads := fun _ => none, gates := fun _ => .free }
  | opened {order : List OperationId} :
      Change hashes services w (.openStore order) { w with
        phase := .opening (order.filterMap fun id => (w.db.outbox.find id).map OutboxRow.data) }
  | skipped {ok : Bool} {e : OutboxEntry} {rest : List OutboxEntry}
      (hp : w.phase = .opening (e :: rest)) :
      Change hashes services w (.recover ok) { w with phase := .opening rest }
  | recovered {ok : Bool} {e : OutboxEntry} {rest : List OutboxEntry} {db : Db} {row : OutboxRow}
      (hp : w.phase = .opening (e :: rest)) (hm : Moved w.db (Store.recovered e) db row) :
      Change hashes services w (.recover ok) { w with db, phase := .opening rest }
  | pruned {ok : Bool} : Change hashes services w (.prune ok)
      { w with db := Store.prune w.db Store.keepRecent, phase := .running }
  | closed {ev : Event} : Change hashes services w ev { w with phase := .closed }

variable {w w' : World} {ev : Event} {t : Nat}

theorem committed_eq_some {ok : Bool} {r : Except String Db} (h : World.committed ok r = some db) :
    ok = true ∧ r = .ok db := by
  unfold World.committed at h
  split at h <;> cases h
  exact ⟨rfl, rfl⟩

theorem gateOf_publish {o : Outbox} {p : PreparedReview} {pos : PublishAt} (h : pos ≠ .lock) :
    World.gateOf (.publish o p pos) = some o.gate := by
  cases pos <;> first | exact absurd rfl h | rfl

theorem change_of_publish {a : Answer} {o : Outbox} {p : PreparedReview} {pos : PublishAt}
    {mv : Move PublishAt} (ht : w.threads t = some (.publish o p pos)) (hl : pos ≠ .lock)
    (hm : PublishStep hashes o.rules w.db p pos mv) :
    Change hashes services w (.step t a)
      (w.perform hashes t (some o.gate) (.publish o p) mv) := by
  have hleft : ∀ {ev : Event}, Change hashes services w ev (w.leave t (some o.gate) .free) := by
    intro ev
    rw [← gateOf_publish (p := p) hl]
    exact .left ht
  cases mv with
  | goto next => exact .went ht hm
  | leave => exact hleft
  | send q next =>
    cases hm
    exact .sent ht
  | write r e next =>
    cases hw : Store.transition hashes w.db e r with
    | error =>
      simp only [World.perform, hw]
      exact hleft
    | ok db =>
      simp only [World.perform, hw]
      obtain ⟨row, hmoved⟩ := writeTransition_ok hw
      cases hm with
      | refuse => exact .ended ht (.inl rfl) hmoved
      | mark => exact .marked ht hmoved
      | finish => exact .ended ht (.inr rfl) hmoved

theorem change_of_reconcile {a : Answer} {id : OperationId} {pos : ReconcileAt}
    {mv : Move ReconcileAt} (ht : w.threads t = some (.reconcile id pos))
    (hm : ReconcileStep w.db id pos mv) :
    Change hashes services w (.step t a) (w.perform hashes t none (.reconcile id) mv) := by
  cases mv with
  | goto next => exact .sought ht hm
  | leave => exact .left (g := .free) ht
  | send q next => cases hm
  | write r e next =>
    cases hw : Store.transition hashes w.db e r with
    | error =>
      simp only [World.perform, hw]
      exact .left (g := .free) ht
    | ok db =>
      simp only [World.perform, hw]
      obtain ⟨row, hmoved⟩ := writeTransition_ok hw
      cases hm with
      | confirm => exact .confirmed ht hmoved

theorem change_of_advance {a : Answer} (h : w.advance hashes services t a = some w') :
    Change hashes services w (.step t a) w' := by
  unfold World.advance at h
  split at h
  · cases h
  · rename_i o p ht
    split at h <;> cases h
    · rename_i hg
      exact .locked ht hg
    · exact .left ht
  · rename_i o p pos hl ht
    obtain ⟨mv, hmv, rfl⟩ := Option.map_eq_some_iff.mp h
    exact change_of_publish ht hl (publishStep_of_move hmv)
  · rename_i id pos ht
    obtain ⟨mv, hmv, rfl⟩ := Option.map_eq_some_iff.mp h
    exact change_of_reconcile ht (reconcileStep_of_move hmv)

theorem change_of_call (h : w.call hashes ev = some w') : Change hashes services w ev w' := by
  unfold World.call at h
  split at h
  · -- A transaction that did not go through leaves everything as it was.
    cases h
    split
    · rename_i hc
      obtain ⟨rfl, hs⟩ := committed_eq_some hc
      exact .saved hs
    · exact .idle
  · cases h
    split
    · rename_i hc
      exact .discarded (committed_eq_some hc).2
    · exact .idle
  · cases h
    exact .shown
  · cases h
    split
    · rename_i hc
      exact .inserted (committed_eq_some hc).2
    · exact .idle
  · cases h
    split
    · rename_i hc
      obtain ⟨row, hm⟩ := writeTransition_ok (committed_eq_some hc).2
      exact .moved hm
    · exact .idle
  · split at h
    · rename_i hn
      cases h
      exact .publish hn
    · cases h
  · rename_i rules id
    split at h
    · rename_i hn
      cases h
      refine .reconcile hn ?_
      cases rules with
      | none => exact .inl rfl
      | some r => exact .inr ⟨r, rfl⟩
    · cases h
  · obtain ⟨th, hth, rfl⟩ := Option.map_eq_some_iff.mp h
    exact .left hth
  · cases h

theorem change_of_recover {ok : Bool} {e : OutboxEntry} {rest : List OutboxEntry}
    (hp : w.phase = .opening (e :: rest)) :
    Change hashes services w (.recover ok) (w.recoverOne hashes ok e rest) := by
  unfold World.recoverOne
  split
  · split
    · rename_i hc
      obtain ⟨row, hm⟩ := writeTransition_ok (committed_eq_some hc).2
      exact .recovered hp hm
    · exact .closed
  · exact .skipped hp

/-- **Every step is a change.** -/
theorem change_of_step (h : (World.system hashes services).step w ev = some w') :
    Change hashes services w ev w' := by
  dsimp only [World.system] at h
  unfold World.step at h
  split at h
  · cases h
    exact .crashed
  · split at h <;> cases h
    exact .opened
  · rename_i hp
    cases h
    exact change_of_recover hp
  · cases h
    split
    · exact .pruned
    · exact .closed
  · exact change_of_advance h
  · exact change_of_call h
  · cases h

end Proof
end Diffz
