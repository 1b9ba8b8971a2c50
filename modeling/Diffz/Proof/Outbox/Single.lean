import Diffz.Proof.Fingerprint
import Diffz.Proof.Outbox.Once

/-!
# One unresolved operation for a pull request

A call of `publish` looks for unresolved operations long before it marks its own, and holds the gate
of its outbox from before the look until it is done. Whatever marks a row of the same pull request
in between would be a publication for the same provider, hence through the same outbox and behind
the same gate; `reconcile` and the recovery only move rows that are unresolved already.

The look is made with the review that was passed in, the mark on the one that was stored, so that
the two have one target is part of the argument: `fingerprint_binds`.
-/

set_option autoImplicit false

namespace Diffz
namespace Proof

open Diffz.Outbox (PublishAt ReconcileAt Answer Move)

variable {hashes : Hashes} {services : Services} {reviews : Set PreparedReview} {w w' : World}
  {ev : Event}

/-! ## The calls of the program -/

/-- The events of a program that goes through `Services`: a review is inserted under the rules of
its provider and published through the outbox of its provider. `reviews` are the reviews that
occur. -/
def Served (services : Services) (reviews : Set PreparedReview) : Event → Prop
  | .insertPrepared rules p _ => services.providerFor p.target.provider = some rules ∧ p ∈ reviews
  | .publish _ o p => services.outboxes p.target.provider = some o ∧ p ∈ reviews
  | .transition _ _ _ => False
  | _ => True

/-- Everything that is hashed for the fingerprint of one of the reviews. -/
def fingerprintKeys (services : Services) (reviews : Set PreparedReview) : Set Bytes :=
  {b | ∃ rules ∈ services.providers, ∃ p ∈ reviews, b = fingerprintKey rules p}

/-- The row has an operation without an outcome. -/
def Unresolved (row : OutboxRow) : Prop :=
  row.data.state = .inFlight ∨ row.data.state = .unknownOutcome

/-- The positions of `publish` between the look for unresolved operations and the mark. -/
def Cleared : PublishAt → Prop
  | .current _ | .drafts _ | .reviews _ | .recheck _ | .mark _ => True
  | _ => False

/-! ## The invariant -/

structure Guarded (hashes : Hashes) (services : Services) (reviews : Set PreparedReview)
    (w : World) : Prop where
  /-- An entry in hand still has the review of its row. -/
  frozen : ∀ e, InHand w e → ∃ row, w.db.outbox.find e.prepared.id = some row ∧
    row.data.prepared = e.prepared
  /-- A stored review is one of `reviews`, and was verified under its provider's rules. -/
  vouched : ∀ id row, w.db.outbox.find id = some row → row.data.prepared ∈ reviews ∧
    ∃ rules ∈ services.providers, row.data.prepared.verify hashes rules
  served : ∀ t o p pos, w.threads t = some (.publish o p pos) →
    services.outboxes p.target.provider = some o ∧ p ∈ reviews
  held : ∀ t o p pos, w.threads t = some (.publish o p pos) → pos ≠ .lock →
    w.gates o.gate = .held t
  /-- The entry in hand was read for the review that is being published. -/
  faithful : ∀ t o p pos e, w.threads t = some (.publish o p pos) → publishEntry pos = some e →
    p.verify hashes o.rules ∧ p.fingerprint = e.prepared.fingerprint
  clear : ∀ t o p pos, w.threads t = some (.publish o p pos) → Cleared pos →
    ∀ id row, w.db.outbox.find id = some row → id ≠ p.id →
      samePr row.data.prepared.target p.target → ¬ Unresolved row
  single : ∀ id id' row row', w.db.outbox.find id = some row → w.db.outbox.find id' = some row' →
    id ≠ id' → samePr row.data.prepared.target row'.data.prepared.target →
    ¬ (Unresolved row ∧ Unresolved row')

theorem not_inHand_of_initial (h : w.Initial) {e : OutboxEntry} : ¬ InHand w e := by
  intro he
  cases he with
  | publish ht =>
    rw [h.threads] at ht
    cases ht
  | reconcile ht =>
    rw [h.threads] at ht
    cases ht
  | recover hp =>
    rw [h.phase] at hp
    cases hp

theorem find_of_initial (h : w.Initial) (id : OperationId) : w.db.outbox.find id = none := by
  rw [h.outbox]
  exact Table.find_empty id

theorem Guarded.initial (h : w.Initial) : Guarded hashes services reviews w where
  frozen e he := absurd he (not_inHand_of_initial h)
  vouched id row hrow := by
    rw [find_of_initial h] at hrow
    cases hrow
  served t o p pos ht := by
    rw [h.threads] at ht
    cases ht
  held t o p pos ht := by
    rw [h.threads] at ht
    cases ht
  faithful t o p pos e ht := by
    rw [h.threads] at ht
    cases ht
  clear t o p pos ht := by
    rw [h.threads] at ht
    cases ht
  single id id' row row' hrow := by
    rw [find_of_initial h] at hrow
    cases hrow

/-! ## Reviews are frozen -/

theorem inserted_provider {rules : ReviewRules} {π : ProviderId}
    (h : services.providerFor π = some rules) : rules ∈ services.providers :=
  List.mem_of_find?_eq_some h

/-- What a program that goes through `Services` writes has the review that is stored. -/
theorem Guarded.written {e : OutboxEntry} {row : OutboxRow}
    (hg : Guarded hashes services reviews w) (hev : Served services reviews ev)
    (hw : Writer w ev e) (hrow : w.db.outbox.find e.prepared.id = some row) :
    e.prepared = row.data.prepared := by
  rcases hw.inHand with ⟨rules, ok, rfl⟩ | ⟨e₀, he₀, hp⟩
  · exact hev.elim
  · obtain ⟨row₀, hrow₀, hprep⟩ := hg.frozen e₀ he₀
    rw [← hp, hrow] at hrow₀
    cases hrow₀
    rw [hprep, hp]

/-- **A stored review never changes.** -/
theorem Guarded.prepared_kept (hg : Guarded hashes services reviews w)
    (hev : Served services reviews ev) (h : Change hashes services w ev w') {id : OperationId}
    {row : OutboxRow} (hrow : w.db.outbox.find id = some row) :
    ∃ row', w'.db.outbox.find id = some row' ∧ row'.data.prepared = row.data.prepared := by
  have hstep := h.row id
  rw [hrow] at hstep
  generalize hafter : w'.db.outbox.find id = after at hstep
  cases hstep with
  | same => exact ⟨row, rfl, rfl⟩
  | moved hid hm hw =>
    subst hid
    exact ⟨_, rfl, hg.written hev hw hrow⟩

/-- Where a row comes from. -/
theorem Guarded.before (hg : Guarded hashes services reviews w)
    (hev : Served services reviews ev) (h : Change hashes services w ev w') {id : OperationId}
    {row' : OutboxRow} (hrow' : w'.db.outbox.find id = some row') :
    (∃ row, w.db.outbox.find id = some row ∧ row'.data.prepared = row.data.prepared ∧
      (row' = row ∨ (Moved w.db row'.data w'.db row ∧ Writer w ev row'.data))) ∨
    (row'.data.state = .prepared ∧ row'.data.prepared ∈ reviews ∧
      ∃ rules ∈ services.providers, row'.data.prepared.verify hashes rules) := by
  have hstep := h.row id
  rw [hrow'] at hstep
  generalize hbefore : w.db.outbox.find id = before at hstep
  cases hstep with
  | same => exact .inl ⟨row', rfl, rfl, .inl rfl⟩
  | inserted hev' hid hv =>
    subst hev'
    exact .inr ⟨rfl, hev.2, _, inserted_provider hev.1, hv⟩
  | moved hid hm hw =>
    subst hid
    exact .inl ⟨_, rfl, hg.written hev hw hbefore, .inr ⟨hm, hw⟩⟩

theorem Guarded.frozen_step (hg : Guarded hashes services reviews w) (hs : Sound w)
    (hev : Served services reviews ev) (h : Change hashes services w ev w') {e : OutboxEntry}
    (he : InHand w' e) : ∃ row, w'.db.outbox.find e.prepared.id = some row ∧
      row.data.prepared = e.prepared := by
  rcases h.inHand he with ⟨e₀, he₀, hp⟩ | ⟨id, row, hrow, rfl⟩
  · obtain ⟨row, hrow, hprep⟩ := hg.frozen e₀ he₀
    rw [← hp] at hrow hprep
    obtain ⟨row', hrow', hprep'⟩ := hg.prepared_kept hev h hrow
    exact ⟨row', hrow', hprep'.trans hprep⟩
  · rw [hs.keyed id row hrow]
    exact hg.prepared_kept hev h hrow

theorem Guarded.vouched_step (hg : Guarded hashes services reviews w)
    (hev : Served services reviews ev) (h : Change hashes services w ev w') {id : OperationId}
    {row' : OutboxRow} (hrow' : w'.db.outbox.find id = some row') :
    row'.data.prepared ∈ reviews ∧
      ∃ rules ∈ services.providers, row'.data.prepared.verify hashes rules := by
  rcases hg.before hev h hrow' with ⟨row, hrow, hprep, -⟩ | ⟨-, hv⟩
  · rw [hprep]
    exact hg.vouched id row hrow
  · exact hv

/-! ## The gate -/

theorem gateOf_eq_some {th : Thread} {n : Nat} (h : World.gateOf th = some n) :
    ∃ o p pos, th = .publish o p pos ∧ pos ≠ .lock ∧ o.gate = n := by
  cases th with
  | reconcile id pos => cases h
  | publish o p pos =>
    by_cases hl : pos = .lock
    · rw [hl] at h
      cases h
    · rw [gateOf_publish hl] at h
      cases h
      exact ⟨o, p, pos, rfl, hl, rfl⟩

/-- A thread that holds a gate and is still there holds it still. -/
theorem Guarded.gate_kept (hg : Guarded hashes services reviews w)
    (h : Change hashes services w ev w') {t : Nat} {th : Thread} {o : Outbox} {p : PreparedReview}
    {pos : PublishAt} (ht : w.threads t = some (.publish o p pos)) (hl : pos ≠ .lock)
    (ht' : w'.threads t = some th) : w'.gates o.gate = .held t := by
  have hheld := hg.held t o p pos ht hl
  cases h.gate o.gate with
  | same hsame => rw [hsame, hheld]
  | taken hfree =>
    rw [hheld] at hfree
    cases hfree
  | dropped hu hgate hgone =>
    -- Who drops the gate holds it, so it would be this very thread.
    obtain ⟨o', p', pos', rfl, hl', ho⟩ := gateOf_eq_some hgate
    have hother := hg.held _ o' p' pos' hu hl'
    rw [ho, hheld] at hother
    cases hother
    rw [ht'] at hgone
    cases hgone
  | crashed hnone =>
    rw [hnone] at ht'
    cases ht'

theorem Guarded.held_step (hg : Guarded hashes services reviews w)
    (h : Change hashes services w ev w') {t : Nat} {o : Outbox} {p : PreparedReview}
    {pos : PublishAt} (ht' : w'.threads t = some (.publish o p pos)) (hl : pos ≠ .lock) :
    w'.gates o.gate = .held t := by
  rcases h.thread ht' with hold | harr
  · exact hg.gate_kept h hold hl ht'
  cases harr with
  | lock => exact absurd rfl hl
  | read hbefore hdb hgate => exact hgate
  | goto hbefore hm =>
    refine hg.gate_kept h hbefore ?_ ht'
    rintro rfl
    cases hm
  | send hev hbefore => exact hg.gate_kept h hbefore PublishAt.noConfusion ht'
  | sending hbefore => exact hg.gate_kept h hbefore PublishAt.noConfusion ht'

/-- Two publications for one provider that are past their locks are one. -/
theorem Guarded.exclusive (hg : Guarded hashes services reviews w) {t t' : Nat} {o o' : Outbox}
    {p p' : PreparedReview} {pos pos' : PublishAt} (ht : w.threads t = some (.publish o p pos))
    (ht' : w.threads t' = some (.publish o' p' pos')) (hl : pos ≠ .lock) (hl' : pos' ≠ .lock)
    (hprov : p.target.provider = p'.target.provider) : t = t' := by
  have ho := (hg.served t o p pos ht).1
  have ho' := (hg.served t' o' p' pos' ht').1
  rw [hprov, ho'] at ho
  cases ho
  have hheld := hg.held t o p pos ht hl
  rw [hg.held t' o p' pos' ht' hl'] at hheld
  cases hheld
  rfl

/-! ## Threads -/

theorem Guarded.served_step (hg : Guarded hashes services reviews w)
    (hev : Served services reviews ev) (h : Change hashes services w ev w') {t : Nat} {o : Outbox}
    {p : PreparedReview} {pos : PublishAt} (ht' : w'.threads t = some (.publish o p pos)) :
    services.outboxes p.target.provider = some o ∧ p ∈ reviews := by
  rcases h.thread ht' with hold | harr
  · exact hg.served t o p pos hold
  cases harr with
  | lock hev' =>
    subst hev'
    exact hev
  | read hbefore => exact hg.served t o p _ hbefore
  | goto hbefore => exact hg.served t o p _ hbefore
  | send hev' hbefore => exact hg.served t o p _ hbefore
  | sending hbefore => exact hg.served t o p _ hbefore

theorem Guarded.faithful_step (hg : Guarded hashes services reviews w)
    (h : Change hashes services w ev w') {t : Nat} {o : Outbox} {p : PreparedReview}
    {pos : PublishAt} {e : OutboxEntry} (ht' : w'.threads t = some (.publish o p pos))
    (he : publishEntry pos = some e) :
    p.verify hashes o.rules ∧ p.fingerprint = e.prepared.fingerprint := by
  rcases h.thread ht' with hold | harr
  · exact hg.faithful t o p pos e hold he
  cases harr with
  | lock => cases he
  | read => cases he
  | goto hbefore hm =>
    rcases publishStep_entry hm he with ⟨-, hfp, hv⟩ | ⟨e₀, he₀, hp⟩
    · exact ⟨hv, hfp.symm⟩
    · rw [hp]
      exact hg.faithful t o p _ e₀ hbefore he₀
  | send hev hbefore =>
    cases he
    exact hg.faithful t o p _ e hbefore rfl
  | sending hbefore =>
    cases he
    exact hg.faithful t o p _ e hbefore rfl

/-- **The review that is being published is the one in the row**, as far as the fingerprint covers
it. -/
theorem Guarded.bound (hg : Guarded hashes services reviews w)
    (hc : CollisionFree hashes.sha256 (fingerprintKeys services reviews)) {t : Nat} {o : Outbox}
    {p : PreparedReview} {pos : PublishAt} {e : OutboxEntry}
    (ht : w.threads t = some (.publish o p pos)) (he : publishEntry pos = some e) :
    ∃ rules ∈ services.providers, e.prepared.verify hashes rules ∧
      Bound o.rules rules p e.prepared := by
  obtain ⟨hv, hfp⟩ := hg.faithful t o p pos e ht he
  obtain ⟨row, hrow, hprep⟩ := hg.frozen e (.publish ht he)
  obtain ⟨hmem, rules, hrules, hver⟩ := hg.vouched _ row hrow
  rw [hprep] at hmem hver
  obtain ⟨ho, hp⟩ := hg.served t o p pos ht
  have hkey : fingerprintKey o.rules p ∈ fingerprintKeys services reviews :=
    ⟨o.rules, services.registered _ _ ho, p, hp, rfl⟩
  have hkey' : fingerprintKey rules e.prepared ∈ fingerprintKeys services reviews :=
    ⟨rules, hrules, e.prepared, hmem, rfl⟩
  exact ⟨rules, hrules, hver, fingerprint_binds hc hkey hkey' hv hver hfp⟩

/-! ## Unresolved rows -/

theorem inFlight_of_canTransition_unknown {s : OutboxState} (h : s.canTransition .unknownOutcome) :
    s = .inFlight := by
  cases s <;> first | rfl | cases h

/-- Only `publish` writes `InFlight`, at its mark. -/
theorem Writer.mark_of_inFlight {e : OutboxEntry} (hs : Sound w) (hev : Served services reviews ev)
    (h : Writer w ev e) (hst : e.state = .inFlight) :
    ∃ t o p, w.threads t = some (.publish o p (.mark e)) := by
  cases h with
  | outside hev' =>
    subst hev'
    exact hev.elim
  | refuse ht =>
    have hrej : e.state = .rejected := hs.stated _ _ _ _ ht
    rw [hrej] at hst
    cases hst
  | mark ht => exact ⟨_, _, _, ht⟩
  | finish ht => exact absurd hst (hs.stated _ _ _ _ ht)
  | confirm ht =>
    rw [hs.settled _ _ _ _ ht] at hst
    cases hst
  | recover hp he =>
    rw [he] at hst
    cases hst

/-- **A row that is unresolved after a step was so before, or has just been marked.** -/
theorem Guarded.unresolved_before (hg : Guarded hashes services reviews w) (hs : Sound w)
    (hev : Served services reviews ev) (h : Change hashes services w ev w') {id : OperationId}
    {row' : OutboxRow} (hrow' : w'.db.outbox.find id = some row') (hu : Unresolved row') :
    (∃ row, w.db.outbox.find id = some row ∧ row.data.prepared = row'.data.prepared ∧
      Unresolved row) ∨
    ∃ t o p e, w.threads t = some (.publish o p (.mark e)) ∧ e.prepared = row'.data.prepared := by
  rcases hg.before hev h hrow' with ⟨row, hrow, hprep, rfl | ⟨hm, hw⟩⟩ | ⟨hst, -⟩
  · exact .inl ⟨row', hrow, rfl, hu⟩
  · rcases hu with hu | hu
    · obtain ⟨t, o, p, ht⟩ := hw.mark_of_inFlight hs hev hu
      exact .inr ⟨t, o, p, _, ht, rfl⟩
    · have hc := hm.allowed
      rw [hu] at hc
      exact .inl ⟨row, hrow, hprep.symm, .inl (inFlight_of_canTransition_unknown hc)⟩
  · rcases hu with hu | hu <;> rw [hst] at hu <;> cases hu

theorem samePr_provider {a b : RemoteTarget} (h : samePr a b) : a.provider = b.provider := by
  simp only [samePr, Bool.and_eq_true, decide_eq_true_eq] at h
  exact h.1.1.1

theorem samePr_comm {a b : RemoteTarget} (h : samePr a b) : samePr b a := by
  simp only [samePr, Bool.and_eq_true, decide_eq_true_eq] at h ⊢
  exact ⟨⟨⟨h.1.1.1.symm, h.1.1.2.symm⟩, h.1.2.symm⟩, h.2.symm⟩

theorem not_unresolved_of_clear {p : PreparedReview} (hs : Sound w)
    (hb : Outbox.blocked w.db p = false) {id : OperationId} {row : OutboxRow}
    (hrow : w.db.outbox.find id = some row) (hid : id ≠ p.id)
    (hpr : samePr row.data.prepared.target p.target) : ¬ Unresolved row := by
  intro hu
  have hmem : row.data ∈ Store.outbox w.db :=
    List.mem_map.mpr ⟨row, Table.mem_rows_iff.mpr ⟨id, hrow⟩, rfl⟩
  have hnot := List.any_eq_false.mp hb _ hmem
  rw [hs.keyed id row hrow, hpr] at hnot
  rcases hu with hu | hu <;> simp [hid, hu] at hnot

/-- A cleared publication stays clear: what would mark a row of its pull request is behind its
gate. -/
theorem Guarded.clear_kept (hg : Guarded hashes services reviews w) (hs : Sound w)
    (hc : CollisionFree hashes.sha256 (fingerprintKeys services reviews))
    (hev : Served services reviews ev) (h : Change hashes services w ev w') {t : Nat} {o : Outbox}
    {p : PreparedReview} {pos : PublishAt} (ht : w.threads t = some (.publish o p pos))
    (hpos : Cleared pos) {id : OperationId} {row' : OutboxRow}
    (hrow' : w'.db.outbox.find id = some row') (hid : id ≠ p.id)
    (hpr : samePr row'.data.prepared.target p.target) : ¬ Unresolved row' := by
  intro hu
  rcases hg.unresolved_before hs hev h hrow' hu with ⟨row, hrow, hprep, hu⟩ | ⟨t', o', p', e, ht', he⟩
  · rw [← hprep] at hpr
    exact hg.clear t o p pos ht hpos id row hrow hid hpr hu
  · obtain ⟨rules, -, -, hbound⟩ := hg.bound hc ht' rfl
    rw [← he, ← hbound.target] at hpr
    have hl : pos ≠ .lock := by
      rintro rfl
      exact hpos
    have htt := hg.exclusive ht ht' hl PublishAt.noConfusion (samePr_provider hpr).symm
    subst htt
    rw [ht] at ht'
    cases ht'
    have hkey := (hs.step h).keyed id row' hrow'
    rw [← he, hs.named t o p _ e ht rfl] at hkey
    exact hid hkey.symm

theorem Guarded.clear_step (hg : Guarded hashes services reviews w) (hs : Sound w)
    (hc : CollisionFree hashes.sha256 (fingerprintKeys services reviews))
    (hev : Served services reviews ev) (h : Change hashes services w ev w') {t : Nat} {o : Outbox}
    {p : PreparedReview} {pos : PublishAt} (ht' : w'.threads t = some (.publish o p pos))
    (hpos : Cleared pos) {id : OperationId} {row' : OutboxRow}
    (hrow' : w'.db.outbox.find id = some row') (hid : id ≠ p.id)
    (hpr : samePr row'.data.prepared.target p.target) : ¬ Unresolved row' := by
  rcases h.thread ht' with hold | harr
  · exact hg.clear_kept hs hc hev h hold hpos hrow' hid hpr
  cases harr with
  | lock => exact hpos.elim
  | read => exact hpos.elim
  | send => exact hpos.elim
  | sending => exact hpos.elim
  | goto hbefore hm hdb =>
    rw [hdb] at hrow'
    cases hm with
    | clear hb => exact not_unresolved_of_clear hs hb hrow' hid hpr
    | unchanged => exact hg.clear t o p _ hbefore trivial id row' hrow' hid hpr
    | saved => exact hg.clear t o p _ hbefore trivial id row' hrow' hid hpr
    | listed => exact hg.clear t o p _ hbefore trivial id row' hrow' hid hpr
    | again => exact hg.clear t o p _ hbefore trivial id row' hrow' hid hpr
    | answered =>
      rename_i out
      cases out <;> simp only [Outbox.sent] at hpos
      · split at hpos <;> exact hpos.elim
      · exact hpos.elim
      · exact hpos.elim
    | _ => exact hpos.elim

/-- Of two unresolved rows of one pull request, one that has just been marked would have been
stopped by the other. -/
theorem Guarded.single_marked (hg : Guarded hashes services reviews w) (hs : Sound w)
    (hc : CollisionFree hashes.sha256 (fingerprintKeys services reviews))
    (hev : Served services reviews ev) (h : Change hashes services w ev w') {id id' : OperationId}
    {row row' : OutboxRow} (hrow : w'.db.outbox.find id = some row)
    (hrow' : w'.db.outbox.find id' = some row') (hid : id ≠ id')
    (hpr : samePr row.data.prepared.target row'.data.prepared.target) {t : Nat} {o : Outbox}
    {p : PreparedReview} {e : OutboxEntry} (ht : w.threads t = some (.publish o p (.mark e)))
    (he : e.prepared = row.data.prepared) : ¬ Unresolved row' := by
  obtain ⟨rules, -, -, hbound⟩ := hg.bound hc ht rfl
  have hpid : id = p.id := by
    rw [← (hs.step h).keyed id row hrow, ← he, hbound.id]
  rw [← he, ← hbound.target] at hpr
  exact hg.clear_kept hs hc hev h ht trivial hrow' (hpid ▸ hid.symm) (samePr_comm hpr)

theorem Guarded.single_step (hg : Guarded hashes services reviews w) (hs : Sound w)
    (hc : CollisionFree hashes.sha256 (fingerprintKeys services reviews))
    (hev : Served services reviews ev) (h : Change hashes services w ev w') {id id' : OperationId}
    {row row' : OutboxRow} (hrow : w'.db.outbox.find id = some row)
    (hrow' : w'.db.outbox.find id' = some row') (hid : id ≠ id')
    (hpr : samePr row.data.prepared.target row'.data.prepared.target) :
    ¬ (Unresolved row ∧ Unresolved row') := by
  rintro ⟨hu, hu'⟩
  rcases hg.unresolved_before hs hev h hrow hu with ⟨r, hr, hprep, hru⟩ | ⟨t, o, p, e, ht, he⟩
  · rcases hg.unresolved_before hs hev h hrow' hu' with
      ⟨r', hr', hprep', hru'⟩ | ⟨t, o, p, e, ht, he⟩
    · rw [← hprep, ← hprep'] at hpr
      exact hg.single id id' r r' hr hr' hid hpr ⟨hru, hru'⟩
    · exact hg.single_marked hs hc hev h hrow' hrow hid.symm (samePr_comm hpr) ht he hu
  · exact hg.single_marked hs hc hev h hrow hrow' hid hpr ht he hu'

theorem Guarded.step (hg : Guarded hashes services reviews w) (hs : Sound w)
    (hc : CollisionFree hashes.sha256 (fingerprintKeys services reviews))
    (hev : Served services reviews ev) (h : Change hashes services w ev w') :
    Guarded hashes services reviews w' where
  frozen _ he := hg.frozen_step hs hev h he
  vouched _ _ hrow := hg.vouched_step hev h hrow
  served _ _ _ _ ht := hg.served_step hev h ht
  held _ _ _ _ ht hl := hg.held_step h ht hl
  faithful _ _ _ _ _ ht he := hg.faithful_step h ht he
  clear _ _ _ _ ht hpos _ _ hrow hid hpr := hg.clear_step hs hc hev h ht hpos hrow hid hpr
  single _ _ _ _ hrow hrow' hid hpr := hg.single_step hs hc hev h hrow hrow' hid hpr

/-! ## Runs -/

theorem Guarded.run {ok : World → Event → Prop} {w₀ : World} {es : List Event}
    (hc : CollisionFree hashes.sha256 (fingerprintKeys services reviews))
    (hok : ∀ w ev, ok w ev → Served services reviews ev) (h₀ : w₀.Initial)
    (h : (World.system hashes services).Steps ok w₀ es w) :
    Sound w ∧ Guarded hashes services reviews w := by
  refine h.invariant (P := fun w => Sound w ∧ Guarded hashes services reviews w) ?_
    ⟨.initial h₀, .initial h₀⟩
  intro w ev w' hev he hi
  have hch := change_of_step he
  exact ⟨hi.1.step hch, hi.2.step hi.1 hc (hok w ev hev) hch⟩

/-- **One unresolved operation for a pull request.** Publications go through the one outbox of their
provider, each `reconcile` through an outbox of its own. In every state such a program reaches, in
whatever order the threads go on, whichever writes fail and wherever it stops and starts again,
two operations on one pull request by one account are not both `InFlight` or `UnknownOutcome`. -/
theorem run_single_unresolved {w₀ : World} {es : List Event}
    (hc : CollisionFree hashes.sha256 (fingerprintKeys services reviews)) (h₀ : w₀.Initial)
    (h : (World.system hashes services).Steps (fun _ ev => Served services reviews ev) w₀ es w) :
    ∀ id id' row row', w.db.outbox.find id = some row → w.db.outbox.find id' = some row' →
      id ≠ id' → samePr row.data.prepared.target row'.data.prepared.target →
      ¬ ((row.data.state = .inFlight ∨ row.data.state = .unknownOutcome) ∧
        (row'.data.state = .inFlight ∨ row'.data.state = .unknownOutcome)) :=
  (Guarded.run hc (fun _ _ hev => hev) h₀ h).2.single

/-! ### A second review while the first is unresolved -/

/-- The process stops when the first review is marked; started again, the program is asked to publish
the second. -/
def interruptedRun : List Event :=
  [.openStore [], .prune true, .saveDraft sampleDraft true,
    .insertPrepared Github.rules firstReview true, .insertPrepared Github.rules secondReview true] ++
  (samplePublication 0 firstReview (.rejected 422)).take 9 ++
  [.crash, .openStore [⟨"op-2"⟩, ⟨"op-1"⟩], .recover true, .recover true, .prune true,
    .publish 0 sampleOutbox secondReview, .step 0 .done, .step 0 .done, .step 0 .done]

def sampleReviews : Set PreparedReview := {firstReview, secondReview}

theorem sampleReviews_collisionFree :
    CollisionFree sampleHashes.sha256 (fingerprintKeys sampleServices sampleReviews) := by
  apply collisionFree_of_nodup
    [fingerprintKey Github.rules firstReview, fingerprintKey Github.rules secondReview]
  · rintro b ⟨rules, hrules, p, hp, rfl⟩
    have hr : rules = Github.rules := List.mem_singleton.mp hrules
    rcases hp with rfl | rfl <;> simp [hr]
  · apply fingerprintKeys_nodup [(Github.rules, firstReview), (Github.rules, secondReview)]
    simp only [List.map_cons, List.map_nil, firstReview_fingerprint, secondReview_fingerprint]
    decide

theorem served_interruptedRun :
    ∀ ev ∈ interruptedRun, Served sampleServices sampleReviews ev := by
  have h₁ : sampleServices.providerFor firstReview.target.provider = some Github.rules ∧
      firstReview ∈ sampleReviews := ⟨rfl, .inl rfl⟩
  have h₂ : sampleServices.providerFor secondReview.target.provider = some Github.rules ∧
      secondReview ∈ sampleReviews := ⟨rfl, .inr rfl⟩
  have ho₁ : sampleServices.outboxes firstReview.target.provider = some sampleOutbox := rfl
  have ho₂ : sampleServices.outboxes secondReview.target.provider = some sampleOutbox := rfl
  simp [interruptedRun, samplePublication, Served, h₁, h₂, ho₁, ho₂]

/-- Both reviews are inserted. -/
def bothWorld : World :=
  { insertedWorld with
    db := { insertedWorld.db with
      outbox := insertedWorld.db.outbox.put secondReview.id ⟨.prepared, newEntry secondReview⟩ } }

theorem firstReview_unobstructed_both :
    Unobstructed sampleHashes bothWorld 0 sampleOutbox firstReview where
  running := rfl
  idle := rfl
  free := rfl
  inserted := rfl
  verified := firstReview_verified
  alone := by decide +kernel
  saved := by decide +kernel
  current := ⟨rfl, rfl⟩

theorem steps_restart {w : World} (hdb : w.db = (markedWorld bothWorld firstReview).db) : ∃ w',
    (World.system sampleHashes sampleServices).Steps (fun _ _ => True) w
      [.crash, .openStore [⟨"op-2"⟩, ⟨"op-1"⟩], .recover true, .recover true, .prune true,
        .publish 0 sampleOutbox secondReview, .step 0 .done, .step 0 .done, .step 0 .done] w' := by
  obtain ⟨_, _, _, _, _, _⟩ := w
  cases hdb
  have hrecovered : Store.writeTransition sampleHashes (markedWorld bothWorld firstReview).db
      (Store.recovered (markedEntry firstReview)) none = .ok _ :=
    writeTransition_of_row rfl rfl rfl (by decide)
  refine ⟨_, .cons trivial rfl <| .cons trivial (openStore_step rfl (.swap _ _ _)) <|
    .cons trivial rfl <| .cons trivial (recover_step rfl rfl hrecovered) <|
    .cons trivial (prune_step rfl ?_) <| .cons trivial rfl <| .cons trivial rfl <|
    .cons trivial (read_step rfl rfl rfl secondReview_verified) <| .cons trivial rfl .nil⟩
  exact (by decide : 1 ≤ 50)

theorem interruptedRun_single : ∃ w,
    (World.system sampleHashes sampleServices).Steps
      (fun _ ev => Served sampleServices sampleReviews ev) sampleWorld interruptedRun w ∧
    ∀ id id' row row', w.db.outbox.find id = some row → w.db.outbox.find id' = some row' →
      id ≠ id' → samePr row.data.prepared.target row'.data.prepared.target →
      ¬ ((row.data.state = .inFlight ∨ row.data.state = .unknownOutcome) ∧
        (row'.data.state = .inFlight ∨ row'.data.state = .unknownOutcome)) := by
  have hinserted : (World.system sampleHashes sampleServices).Steps (fun _ _ => True) sampleWorld
      insertion insertedWorld := steps_insertedWorld sampleServices fun _ _ _ _ _ => trivial
  have hboth : (World.system sampleHashes sampleServices).step insertedWorld
      (.insertPrepared Github.rules secondReview true) = some bothWorld :=
    insertPrepared_step rfl secondReview_verified rfl
  obtain ⟨w₁, hmarked, hw₁⟩ := publication_marks sampleServices firstReview_unobstructed_both
  obtain ⟨w, hrestart⟩ := steps_restart hw₁.db
  have hsteps : (World.system sampleHashes sampleServices).Steps
      (fun _ ev => Served sampleServices sampleReviews ev) sampleWorld interruptedRun w :=
    (hinserted.append (.cons trivial hboth (hmarked.append hrestart))).of_mem
      fun _ ev he => served_interruptedRun ev he
  exact ⟨w, hsteps, run_single_unresolved sampleReviews_collisionFree sampleWorld_initial hsteps⟩

end Proof
end Diffz
