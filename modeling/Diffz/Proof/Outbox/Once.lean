import Diffz.Proof.Outbox.Publication
import Diffz.Proof.Outbox.Rows

/-!
# At most one request for an operation

Before `remote.send` is called the row of the operation is moved to `InFlight`, and no move leads
back to `Prepared`. So of all the calls of `publish` for one operation, in this process and in the
ones before it, only the one whose write took the row out of `Prepared` gets as far as the request.
-/

set_option autoImplicit false

namespace Diffz
namespace Proof

open Diffz.Outbox (PublishAt ReconcileAt Answer Move)

variable {hashes : Hashes} {services : Services} {w w' : World} {ev : Event}

/-! ## Entries name their operation -/

/-- The state an entry has where `publish` writes it. -/
def Stated : PublishAt → Prop
  | .refuse e => e.state = .rejected
  | .mark e => e.state = .inFlight
  | .finish e => e.state ≠ .inFlight
  | _ => True

/-- Rows stand under the id of their review, and an entry in hand is of the operation that is being
published. -/
structure Sound (w : World) : Prop where
  keyed : ∀ id row, w.db.outbox.find id = some row → row.data.prepared.id = id
  named : ∀ t o p pos e, w.threads t = some (.publish o p pos) → publishEntry pos = some e →
    e.prepared.id = p.id
  stated : ∀ t o p pos, w.threads t = some (.publish o p pos) → Stated pos
  settled : ∀ t id rules e, w.threads t = some (.reconcile id (.confirm rules e)) →
    e.state = .confirmed

theorem Sound.initial (h : w.Initial) : Sound w where
  keyed := by
    intro id row hrow
    rw [h.outbox, Table.find_empty] at hrow
    cases hrow
  named := by
    intro t o p pos e ht
    rw [h.threads] at ht
    cases ht
  stated := by
    intro t o p pos ht
    rw [h.threads] at ht
    cases ht
  settled := by
    intro t id rules e ht
    rw [h.threads] at ht
    cases ht

theorem stated_of_publishStep {rules : ReviewRules} {db : Db} {p : PreparedReview}
    {pos next : PublishAt} (h : PublishStep hashes rules db p pos (.goto next)) : Stated next := by
  cases h with
  | changed => exact rfl
  | again => exact rfl
  | answered =>
    rename_i e o
    cases o with
    | accepted response =>
      unfold Outbox.sent
      dsimp only
      split
      · trivial
      · intro hst
        cases hst
    | rejected code =>
      intro hst
      cases hst
    | unknown reason =>
      intro hst
      cases hst
  | verified =>
    unfold Outbox.verified
    intro hst
    split at hst <;> cases hst
  | _ => trivial

theorem Sound.step (h : Change hashes services w ev w') (hs : Sound w) : Sound w' where
  keyed := by
    intro id row hrow
    have hstep := h.row id
    rw [hrow] at hstep
    generalize hbefore : w.db.outbox.find id = before at hstep
    cases hstep with
    | same => exact hs.keyed id row hbefore
    | inserted hev hid hv => exact hid
    | moved hid hm hw => exact hid
  named := by
    intro t o p pos e ht he
    rcases h.thread ht with hold | harr
    · exact hs.named t o p pos e hold he
    cases harr with
    | lock => cases he
    | read => cases he
    | goto hbefore hm =>
      rcases publishStep_entry hm he with ⟨hop, -⟩ | ⟨e₀, he₀, hp⟩
      · obtain ⟨row, hrow, rfl⟩ := operation_ok hop
        exact hs.keyed p.id row hrow
      · rw [hp]
        exact hs.named t o p _ e₀ hbefore he₀
    | send hev hbefore =>
      cases he
      exact hs.named t o p _ e hbefore rfl
    | sending hbefore =>
      cases he
      exact hs.named t o p _ e hbefore rfl
  stated := by
    intro t o p pos ht
    rcases h.thread ht with hold | harr
    · exact hs.stated t o p pos hold
    cases harr with
    | goto hbefore hm => exact stated_of_publishStep hm
    | _ => trivial
  settled := by
    intro t id rules e ht
    rcases h.thread ht with hold | harr
    · exact hs.settled t id rules e hold
    cases harr with
    | find hpos => rcases hpos with hpos | ⟨r, hpos⟩ <;> cases hpos
    | seek hbefore hm =>
      cases hm with
      | one => rfl

/-! ## Operations whose request may have been made -/

/-- The row of the operation has left `Prepared`. -/
def Began (db : Db) (id : OperationId) : Prop :=
  ∃ row, db.outbox.find id = some row ∧ row.data.state ≠ .prepared

theorem not_canTransition_prepared (s : OutboxState) : ¬ s.canTransition .prepared := by
  cases s <;> decide

theorem prepared_of_canTransition_inFlight {s : OutboxState} (h : s.canTransition .inFlight) :
    s = .prepared := by
  cases s <;> first | rfl | cases h

theorem Began.step (h : Change hashes services w ev w') {id : OperationId} (hb : Began w.db id) :
    Began w'.db id := by
  obtain ⟨row, hrow, hst⟩ := hb
  have hstep := h.row id
  rw [hrow] at hstep
  generalize hafter : w'.db.outbox.find id = after at hstep
  cases hstep with
  | same => exact ⟨row, hafter, hst⟩
  | moved hid hm hw =>
    rename_i e
    refine ⟨_, hafter, ?_⟩
    intro hprep
    have hprep : e.state = .prepared := hprep
    exact not_canTransition_prepared _ (hprep ▸ hm.allowed)

/-- **A marked row was `Prepared`, and is not any more.** -/
theorem Moved.began {db db' : Db} {e : OutboxEntry} {row : OutboxRow} (hm : Moved db e db' row)
    (hst : e.state = .inFlight) : ¬ Began db e.prepared.id ∧ Began db' e.prepared.id := by
  constructor
  · rintro ⟨row', hrow', hne⟩
    rw [hm.found] at hrow'
    cases hrow'
    have hallowed := hm.allowed
    rw [hst] at hallowed
    exact hne (prepared_of_canTransition_inFlight hallowed)
  · refine ⟨_, (hm.find _).trans (if_pos rfl), ?_⟩
    intro hprep
    have hprep : e.state = .prepared := hprep
    rw [hst] at hprep
    cases hprep

/-- The requests made and the ones about to be made are for different operations, all begun. -/
structure Once (w : World) : Prop where
  began : ∀ p ∈ w.sent, Began w.db p.id
  calling : ∀ t o p e, w.threads t = some (.publish o p (.send e)) →
    Began w.db p.id ∧ ∀ q ∈ w.sent, q.id ≠ p.id
  alone : ∀ t o p e t' o' p' e', w.threads t = some (.publish o p (.send e)) →
    w.threads t' = some (.publish o' p' (.send e')) → p.id = p'.id → t = t'
  once : (w.sent.map PreparedReview.id).Nodup

theorem Once.initial (h : w.Initial) : Once w where
  began := by
    intro p hp
    rw [h.sent] at hp
    cases hp
  calling := by
    intro t o p e ht
    rw [h.threads] at ht
    cases ht
  alone := by
    intro t o p e t' o' p' e' ht
    rw [h.threads] at ht
    cases ht
  once := by
    rw [h.sent]
    exact List.nodup_nil

/-- A thread that has just come to `send` had the row taken out of `Prepared` for it. -/
theorem Arrives.began {t : Nat} {o : Outbox} {p : PreparedReview} {e : OutboxEntry} (hs : Sound w)
    (h : Arrives hashes w ev w' t (.publish o p (.send e))) :
    ¬ Began w.db p.id ∧ Began w'.db p.id ∧ w'.sent = w.sent ∧ ∃ a, ev = .step t a := by
  cases h with
  | goto hbefore hm =>
    -- No move of `publish` goes to `send` without a write.
    generalize hnext : PublishAt.send e = next at hm
    cases hm with
    | answered =>
      rename_i o
      cases o <;> simp only [Outbox.sent] at hnext
      · split at hnext <;> cases hnext
      · cases hnext
      · cases hnext
    | _ => cases hnext
  | send hev hbefore hm hsent =>
    have hb := hm.began (hs.stated t o p _ hbefore)
    rw [hs.named t o p _ e hbefore rfl] at hb
    exact ⟨hb.1, hb.2, hsent, _, hev⟩

theorem Once.step (h : Change hashes services w ev w') (hs : Sound w) (ho : Once w) : Once w' where
  began := by
    intro p hp
    rcases h.calls with hsent | ⟨t, o, q, e, ht, -, hsent⟩
    · rw [hsent] at hp
      exact (ho.began p hp).step h
    · rw [hsent] at hp
      rcases List.mem_cons.mp hp with rfl | hp
      · exact (ho.calling t o p e ht).1.step h
      · exact (ho.began p hp).step h
  calling := by
    intro t o p e ht
    rcases h.thread ht with hold | harr
    · have hc := ho.calling t o p e hold
      refine ⟨hc.1.step h, ?_⟩
      intro q hq
      rcases h.calls with hsent | ⟨t', o', p', e', ht', hafter, hsent⟩
      · rw [hsent] at hq
        exact hc.2 q hq
      · rw [hsent] at hq
        rcases List.mem_cons.mp hq with rfl | hq
        · -- The thread that made the request has moved on, so it is not this one.
          intro hid
          have htt := ho.alone t o p e t' o' q e' hold ht' hid.symm
          subst htt
          rw [ht] at hafter
          cases hafter
        · exact hc.2 q hq
    · obtain ⟨hnot, hbegan, hsent, -⟩ := harr.began hs
      refine ⟨hbegan, ?_⟩
      intro q hq hid
      rw [hsent] at hq
      exact hnot (hid ▸ ho.began q hq)
  alone := by
    intro t o p e t' o' p' e' ht ht' hid
    rcases h.thread ht with hold | harr
    · rcases h.thread ht' with hold' | harr'
      · exact ho.alone t o p e t' o' p' e' hold hold' hid
      · exact absurd (hid ▸ (ho.calling t o p e hold).1) (harr'.began hs).1
    · rcases h.thread ht' with hold' | harr'
      · exact absurd (hid ▸ (ho.calling t' o' p' e' hold').1) (harr.began hs).1
      · -- Both have just arrived, and a step moves one thread.
        obtain ⟨-, -, -, a, rfl⟩ := harr.began hs
        obtain ⟨-, -, -, a', hev⟩ := harr'.began hs
        cases hev
        rfl
  once := by
    rcases h.calls with hsent | ⟨t, o, p, e, ht, -, hsent⟩
    · rw [hsent]
      exact ho.once
    · rw [hsent, List.map_cons, List.nodup_cons]
      refine ⟨?_, ho.once⟩
      intro hmem
      obtain ⟨q, hq, hid⟩ := List.mem_map.mp hmem
      exact (ho.calling t o p e ht).2 q hq hid

/-! ## Outcomes are final -/

/-- A row with an outcome is kept as it is. -/
theorem outcome_kept (h : Change hashes services w ev w') {id : OperationId} {row : OutboxRow}
    (hrow : w.db.outbox.find id = some row)
    (hst : row.data.state = .confirmed ∨ row.data.state = .rejected) :
    w'.db.outbox.find id = some row := by
  have hstep := h.row id
  rw [hrow] at hstep
  generalize hafter : w'.db.outbox.find id = after at hstep
  cases hstep with
  | same => rfl
  | moved hid hm hw =>
    have hc := hm.allowed
    rcases hst with hst | hst <;> rw [hst] at hc <;> cases hc

/-! ## Runs -/

theorem Once.run {es : List Event} (hw : Sound w ∧ Once w)
    (h : (World.system hashes services).run w es = some w') : Sound w' ∧ Once w' := by
  refine (Lts.steps_of_run h).invariant (P := fun w => Sound w ∧ Once w) ?_ hw
  intro w e w' _ he hi
  have hc := change_of_step he
  exact ⟨hi.1.step hc, hi.2.step hc hi.1⟩

/-- **At most one request, and outcomes are final.** In every run from an empty outbox, whatever
the remote answers and wherever writes fail and the process stops, `remote.send` is called at most
once for an operation; and a row that is `Confirmed` or `Rejected` at some point of the run is the
same row from there on. -/
theorem run_sends_once {w₀ w₁ w₂ : World} {es₁ es₂ : List Event} (h₀ : w₀.Initial)
    (h₁ : (World.system hashes services).run w₀ es₁ = some w₁)
    (h₂ : (World.system hashes services).run w₁ es₂ = some w₂) :
    (w₂.sent.map PreparedReview.id).Nodup ∧
      ∀ id row, w₁.db.outbox.find id = some row →
        row.data.state = .confirmed ∨ row.data.state = .rejected →
        w₂.db.outbox.find id = some row := by
  constructor
  · have hw₁ := Once.run ⟨.initial h₀, .initial h₀⟩ h₁
    exact (Once.run hw₁ h₂).2.once
  · intro id row hrow hst
    refine (Lts.steps_of_run h₂).invariant (P := fun w => w.db.outbox.find id = some row) ?_ hrow
    intro w e w' _ he hkept
    exact outcome_kept (change_of_step he) hkept hst

/-! ### A refused publication -/

/-- A state directory with one snapshot in it. -/
def sampleWorld : World where
  db := ⟨Table.put ∅ sampleSnapshot.id ⟨sampleSnapshot, 0, 1⟩, ∅, ∅, ∅, ∅, ∅⟩
  phase := .closed
  threads _ := none
  gates _ := .free
  sent := []
  discarded := []

theorem sampleWorld_initial : sampleWorld.Initial where
  phase := rfl
  threads := rfl
  gates := rfl
  snapshots := by
    intro id row hrow
    simp only [sampleWorld, Table.find_put] at hrow
    split at hrow
    · rename_i hid
      cases hrow
      exact hid.symm
    · rw [Table.find_empty] at hrow
      cases hrow
  drafts := rfl
  outbox := rfl
  sent := rfl
  discarded := rfl

def sampleServices : Services := Services.empty.register Github.rules true true 0

def sampleOutbox : Outbox := ⟨Github.rules, 0⟩

/-- A publication by thread `t`, up to the answer to its request. -/
def samplePublication (t : Nat) (p : PreparedReview) (answer : SendOutcome) : List Event :=
  [.publish t sampleOutbox p, .step t .done, .step t .done, .step t .done,
    .step t (.target sampleTarget), .step t .done, .step t (.reviews []),
    .step t (.target sampleTarget), .step t .done, .step t .done, .step t (.outcome answer)]

/-- The draft is saved and its review published, which the provider refuses. -/
def refusedRun : List Event :=
  [.openStore [], .prune true, .saveDraft sampleDraft true,
    .insertPrepared Github.rules firstReview true] ++
  samplePublication 0 firstReview (.rejected 422) ++ [.step 0 .done]

/-- The program is started again and asked to publish the same review. -/
def retryRun : List Event :=
  [.crash, .openStore [⟨"op-1"⟩], .recover true, .prune true, .publish 0 sampleOutbox firstReview,
    .step 0 .done, .step 0 .done]

/-- The draft is saved and the review inserted. -/
def insertedWorld : World :=
  { sampleWorld with
    phase := .running
    db := { withSaved sampleWorld.db sampleDraft with
      outbox := Table.put ∅ firstReview.id ⟨.prepared, newEntry firstReview⟩ } }

/-- What leads there. -/
def insertion : List Event :=
  [.openStore [], .prune true, .saveDraft sampleDraft true,
    .insertPrepared Github.rules firstReview true]

theorem steps_insertedWorld (services : Services) {ok : World → Event → Prop}
    (hok : ∀ w, ∀ ev ∈ insertion, w.db.snapshots = sampleWorld.db.snapshots → w.discarded = [] →
      ok w ev) :
    (World.system sampleHashes services).Steps ok sampleWorld insertion insertedWorld := by
  have hsave : Store.saveDraft sampleHashes sampleWorld.db sampleDraft =
      .ok (withSaved sampleWorld.db sampleDraft) :=
    saveDraft_sample ⟨_, rfl, rfl⟩ (by decide)
  exact .cons (hok _ _ (by simp [insertion]) rfl rfl) (openStore_step rfl (.refl _)) <|
    .cons (hok _ _ (by simp [insertion]) rfl rfl) (prune_step rfl (by decide)) <|
    .cons (hok _ _ (by simp [insertion]) rfl rfl) (saveDraft_step rfl hsave) <|
    .cons (hok _ _ (by simp [insertion]) rfl rfl) (insertPrepared_step rfl firstReview_verified rfl) .nil

theorem firstReview_unobstructed :
    Unobstructed sampleHashes insertedWorld 0 sampleOutbox firstReview where
  running := rfl
  idle := rfl
  free := rfl
  inserted := rfl
  verified := firstReview_verified
  alone := by decide +kernel
  saved := by decide +kernel
  current := ⟨rfl, rfl⟩

/-- The row of the refused review. -/
def refusedEntry : OutboxEntry :=
  { markedEntry firstReview with
    state := .rejected
    diagnostic := some ("Provider refused this request (HTTP " ++ toString 422 ++
      "); drafts remain") }

theorem steps_refusedRun : ∃ w,
    (World.system sampleHashes sampleServices).Steps (fun _ _ => True) sampleWorld refusedRun w ∧
    w.sent = [firstReview] ∧
    w.db.outbox = Table.put ∅ firstReview.id ⟨.rejected, refusedEntry⟩ ∧
    w.db.snapshots = sampleWorld.db.snapshots := by
  obtain ⟨w₁, hs₁, hw₁⟩ := publication_sends sampleServices firstReview_unobstructed
  have hrefused : Outbox.publishMove sampleHashes sampleOutbox.rules
      (markedWorld insertedWorld firstReview).db firstReview (.sending (markedEntry firstReview))
      (.outcome (.rejected 422)) = some (.goto (.finish refusedEntry)) := rfl
  obtain ⟨w₂, hs₂, hw₂⟩ := hw₁.move sampleServices (by simp) hrefused
  have hdb : Store.writeTransition sampleHashes (markedWorld insertedWorld firstReview).db
      refusedEntry none = .ok _ :=
    writeTransition_of_row rfl rfl rfl (by decide)
  obtain ⟨w₃, hs₃, -, hdb₃, hsent, -⟩ := hw₂.finish sampleServices firstReview_verified hdb
  refine ⟨w₃, (steps_insertedWorld sampleServices (fun _ _ _ _ _ => trivial)).append
    (hs₁.append (.cons trivial hs₂ (.cons trivial hs₃ .nil))), hsent, ?_, ?_⟩
  · rw [hdb₃]
    rfl
  · rw [hdb₃]
    rfl

theorem steps_retryRun {w : World} (hsent : w.sent = [firstReview])
    (hrows : w.db.outbox = Table.put ∅ firstReview.id ⟨.rejected, refusedEntry⟩)
    (hsnapshots : w.db.snapshots = sampleWorld.db.snapshots) : ∃ w',
    (World.system sampleHashes sampleServices).Steps (fun _ _ => True) w retryRun w' ∧
    w'.sent = [firstReview] := by
  obtain ⟨⟨_, _, _, _, _, _⟩, _, _, _, _, _⟩ := w
  cases hsent
  cases hrows
  cases hsnapshots
  refine ⟨_, .cons trivial rfl <| .cons trivial (openStore_step rfl (.refl _)) <|
    .cons trivial rfl <| .cons trivial (prune_step rfl ?_) <| .cons trivial rfl <|
    .cons trivial rfl <| .cons trivial rfl .nil, ?_⟩
  · exact (by decide : 1 ≤ 50)
  · rfl

theorem refused_review_not_sent_again : ∃ w₁ w₂,
    (World.system sampleHashes sampleServices).run sampleWorld refusedRun = some w₁ ∧
    (World.system sampleHashes sampleServices).run w₁ retryRun = some w₂ ∧ w₂.sent.length = 1 ∧
    (w₂.sent.map PreparedReview.id).Nodup ∧
    ∀ id row, w₁.db.outbox.find id = some row →
      row.data.state = .confirmed ∨ row.data.state = .rejected →
      w₂.db.outbox.find id = some row := by
  obtain ⟨w₁, hs₁, hsent, hrows, hsnapshots⟩ := steps_refusedRun
  obtain ⟨w₂, hs₂, hsent₂⟩ := steps_retryRun hsent hrows hsnapshots
  exact ⟨w₁, w₂, hs₁.run, hs₂.run, congrArg List.length hsent₂,
    run_sends_once sampleWorld_initial hs₁.run hs₂.run⟩

end Proof
end Diffz
