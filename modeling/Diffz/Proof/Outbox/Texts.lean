import Diffz.Proof.Outbox.Drafts
import Diffz.Proof.Outbox.Single
import Diffz.Proof.Prepare

/-!
# No text is sent twice

A draft's version is in at most one operation that was sent and not rejected. Four checks of the
program share the work: a publication that passes `blocked` finds the operations before it resolved;
a confirmed one has published its drafts; `draftsSaved` refuses a published draft; and `save_draft`
neither rewrites a published row nor gives a version a second text.

The invariant is about rows, not about requests: `Launched` rows are the ones whose request may have
been made and was not refused. A comment of such a row is `Spent`: its draft has since moved on to a
later version, still has the text, or is gone for good.
-/

set_option autoImplicit false

namespace Diffz
namespace Proof

open Diffz.Outbox (PublishAt ReconcileAt Answer Move)

variable {hashes : Hashes} {services : Services} {reviews : Set PreparedReview}
  {home : DraftId → SnapshotId} {shelf : SnapshotId → Option Snapshot} {w w' : World} {ev : Event}

/-! ## The calls of the program -/

/-- The review was prepared from a snapshot of the store. -/
def PreparedFrom (hashes : Hashes) (rules : ReviewRules) (db : Db) (p : PreparedReview) : Prop :=
  ∃ sid s drafts verdict summary, Store.snapshot hashes db sid = .ok s ∧
    PreparedReview.prepare hashes rules p.id s drafts verdict summary = .ok p

/-- The events of a program in which, besides, every draft id belongs to one snapshot, no draft is
saved again once it was discarded, and what is inserted was prepared from the store. -/
def Composed (hashes : Hashes) (services : Services) (reviews : Set PreparedReview)
    (home : DraftId → SnapshotId) (w : World) (ev : Event) : Prop :=
  Served services reviews ev ∧
    match ev with
    | .saveDraft d ok => d.snapshot = home d.id ∧
      (World.committed ok (Store.saveDraft hashes w.db d) ≠ none → d.id ∉ w.discarded)
    | .insertPrepared rules p _ => PreparedFrom hashes rules w.db p
    | _ => True

/-! ## What has become of a text -/

/-- The draft of the comment has the text, has a later one, or is gone and cannot come back. -/
def Reached (home : DraftId → SnapshotId) (w : World) (c : PreparedComment) : Prop :=
  match w.db.drafts.find c.draft with
  | some row => c.version < row.data.version ∨
      (c.version = row.data.version ∧ row.data.body = c.body)
  | none => c.draft ∈ w.discarded ∨ w.db.snapshots.find (home c.draft) = none

/-- A draft that still has the version of the comment is published. -/
def Closed (w : World) (c : PreparedComment) : Prop :=
  ∀ row, w.db.drafts.find c.draft = some row → row.data.version = c.version →
    row.data.published = true

/-- The columns of a draft's row agree with its data. -/
structure Synced (home : DraftId → SnapshotId) (x : DraftId) (row : DraftRow) : Prop where
  id : row.data.id = x
  homed : row.snapshotId = home x
  published : row.published = row.data.published

theorem publishedBy_version (cs : List PreparedComment) (x : DraftId) (row : DraftRow) :
    (publishedBy cs x row).data.version = row.data.version := by
  unfold publishedBy
  split <;> rfl

theorem publishedBy_body (cs : List PreparedComment) (x : DraftId) (row : DraftRow) :
    (publishedBy cs x row).data.body = row.data.body := by
  unfold publishedBy
  split <;> rfl

/-- A save that is applied finds a snapshot and a draft that was not discarded. -/
theorem Composed.save {d : Draft} (hev : Composed hashes services reviews home w (.saveDraft d true))
    (hs : Store.saveDraft hashes w.db d = .ok w'.db) :
    d.snapshot = home d.id ∧ d.id ∉ w.discarded ∧ w.db.snapshots.find (home d.id) ≠ none := by
  obtain ⟨-, hhome, hfresh⟩ := hev
  refine ⟨hhome, ?_, ?_⟩
  · apply hfresh
    rw [hs]
    exact Option.some_ne_none _
  · obtain ⟨s, f, hplaced⟩ := (saveDraft_ok hs).placed
    obtain ⟨row, rows, hrow, -⟩ := snapshot_ok hplaced.read
    rw [← hhome, hrow]
    exact Option.some_ne_none _

theorem Synced.step (h : Change hashes services w ev w')
    (hev : Composed hashes services reviews home w ev)
    (hs : ∀ x row, w.db.drafts.find x = some row → Synced home x row) {x : DraftId}
    {row' : DraftRow} (hrow' : w'.db.drafts.find x = some row') : Synced home x row' := by
  have hstep := h.draft (fun x row hrow => (hs x row hrow).id) x
  rw [hrow'] at hstep
  generalize hbefore : w.db.drafts.find x = before at hstep
  generalize hafter : some row' = after at hstep
  cases hstep with
  | same =>
    subst hafter
    exact hs x row' hbefore
  | saved hev' hid hsave hover =>
    rename_i d
    cases hafter
    subst hev' hid
    have hpub := (saveDraft_ok hsave).unpublished
    obtain ⟨hhome, -, -⟩ := hev.save hsave
    cases before with
    | none => exact ⟨rfl, hhome, hpub.symm⟩
    | some row =>
      have hrow := hs d.id row hbefore
      have hover := hover row rfl
      exact ⟨rfl, hrow.homed, (hrow.published.trans hover.unpublished).trans hpub.symm⟩
  | published hm hst =>
    rename_i row e orow
    cases hafter
    have hrow := hs x row hbefore
    unfold publishedBy
    split
    · exact ⟨hrow.id, hrow.homed, rfl⟩
    · exact hrow
  | discarded => cases hafter
  | pruned => cases hafter

theorem Reached.step (h : Change hashes services w ev w')
    (hev : Composed hashes services reviews home w ev)
    (hs : ∀ x row, w.db.drafts.find x = some row → Synced home x row) {c : PreparedComment}
    (hr : Reached home w c) : Reached home w' c := by
  have hstep := h.draft (fun x row hrow => (hs x row hrow).id) c.draft
  unfold Reached at hr ⊢
  generalize hbefore : w.db.drafts.find c.draft = before at hstep hr
  generalize w'.db.drafts.find c.draft = after at hstep
  cases hstep with
  | same =>
    cases before with
    | none => exact hr.imp h.discarded_kept h.snapshot_gone
    | some row => exact hr
  | saved hev' hid hsave hover =>
    rename_i d
    subst hev'
    obtain ⟨hhome, hfresh, hthere⟩ := hev.save hsave
    dsimp only
    rw [savedRow_data]
    cases before with
    | none =>
      rw [hid] at hfresh hthere
      rcases hr with hr | hr
      · exact absurd hr hfresh
      · exact absurd hr hthere
    | some row =>
      obtain ⟨-, -, hle, hsame⟩ := hover row rfl
      rcases hr with hlt | ⟨heq, hbody⟩
      · exact .inl (Nat.lt_of_lt_of_le hlt hle)
      · rcases Nat.lt_or_eq_of_le hle with hlt | hversion
        · exact .inl (heq ▸ hlt)
        · exact .inr ⟨heq.trans hversion, (hsame hversion).symm.trans hbody⟩
  | discarded hpub hx => exact .inl hx
  | published hm hst =>
    dsimp only
    rw [publishedBy_version, publishedBy_body]
    exact hr
  | pruned hgone =>
    rw [(hs c.draft _ hbefore).homed] at hgone
    exact .inr hgone

theorem Closed.step (h : Change hashes services w ev w')
    (hev : Composed hashes services reviews home w ev)
    (hs : ∀ x row, w.db.drafts.find x = some row → Synced home x row) {c : PreparedComment}
    (hr : Reached home w c) (hc : Closed w c) : Closed w' c := by
  intro row' hrow' hversion
  have hstep := h.draft (fun x row hrow => (hs x row hrow).id) c.draft
  rw [hrow'] at hstep
  unfold Reached at hr
  generalize hbefore : w.db.drafts.find c.draft = before at hstep hr
  generalize hafter : some row' = after at hstep
  cases hstep with
  | same =>
    subst hafter
    exact hc row' hbefore hversion
  | saved hev' hid hsave hover =>
    rename_i d
    cases hafter
    subst hev'
    rw [savedRow_data] at hversion
    obtain ⟨hhome, hfresh, hthere⟩ := hev.save hsave
    cases before with
    | none =>
      rw [hid] at hfresh hthere
      rcases hr with hr | hr
      · exact absurd hr hfresh
      · exact absurd hr hthere
    | some row =>
      -- The row had this version or a later one, so it had this one and was published.
      obtain ⟨-, hpub, hle, -⟩ := hover row rfl
      have hle : row.data.version ≤ c.version := hversion ▸ hle
      rcases hr with hlt | ⟨heq, -⟩
      · exact absurd hlt (Nat.not_lt.mpr hle)
      · rw [hc row hbefore heq.symm] at hpub
        cases hpub
  | published hm hst =>
    rename_i row e orow
    cases hafter
    rw [publishedBy_version] at hversion
    unfold publishedBy
    split
    · rfl
    · exact hc row hbefore hversion
  | discarded => cases hafter
  | pruned => cases hafter

/-- **Confirming a review closes its comments.** -/
theorem Moved.closed {e : OutboxEntry} {orow : OutboxRow} (hm : Moved w.db e w'.db orow)
    (hst : e.state = .confirmed)
    (hs : ∀ x row, w.db.drafts.find x = some row → Synced home x row) {c : PreparedComment}
    (hc : c ∈ e.prepared.comments) (hr : Reached home w c) : Closed w' c := by
  intro row' hrow' hversion
  rw [hm.drafts, if_pos hst, publishDrafts_find fun x row hrow => (hs x row hrow).id] at hrow'
  obtain ⟨row, hrow, rfl⟩ := Option.map_eq_some_iff.mp hrow'
  rw [publishedBy_version] at hversion
  unfold Reached at hr
  rw [hrow] at hr
  rcases hr with hlt | ⟨-, hbody⟩
  · exact absurd hversion (Nat.ne_of_gt hlt)
  · rw [publishedBy, if_pos ⟨c, hc, rfl, hversion, hbody⟩]
    rfl

/-! ## Launched operations -/

/-- The request may have been made, and was not refused. -/
def Launched (row : OutboxRow) : Prop := Unresolved row ∨ row.data.state = .confirmed

/-- Two comments have no version of a draft in common. -/
def Apart (p q : PreparedReview) : Prop :=
  ∀ c ∈ p.comments, ∀ c' ∈ q.comments, c.draft = c'.draft → c.version ≠ c'.version

theorem Apart.symm {p q : PreparedReview} (h : Apart p q) : Apart q p :=
  fun c hc c' hc' hd hv => h c' hc' c hc hd.symm hv.symm

theorem unresolved_of_canTransition_confirmed {s : OutboxState} (h : s.canTransition .confirmed) :
    s = .inFlight ∨ s = .unknownOutcome := by
  cases s <;> first | exact .inl rfl | exact .inr rfl | cases h

/-- A row that is launched after a step was so before, or has just been marked. -/
theorem Guarded.launched_before (hg : Guarded hashes services reviews w) (hs : Sound w)
    (hev : Served services reviews ev) (h : Change hashes services w ev w') {id : OperationId}
    {row' : OutboxRow} (hrow' : w'.db.outbox.find id = some row') (hl : Launched row') :
    (∃ row, w.db.outbox.find id = some row ∧ row.data.prepared = row'.data.prepared ∧
      Launched row) ∨
    ∃ t o p e, w.threads t = some (.publish o p (.mark e)) ∧ e.prepared = row'.data.prepared := by
  rcases hl with hu | hst
  · rcases hg.unresolved_before hs hev h hrow' hu with ⟨row, hrow, hprep, hu⟩ | hmark
    · exact .inl ⟨row, hrow, hprep, .inl hu⟩
    · exact .inr hmark
  · rcases hg.before hev h hrow' with ⟨row, hrow, hprep, rfl | ⟨hm, -⟩⟩ | ⟨hprep, -⟩
    · exact .inl ⟨row', hrow, rfl, .inr hst⟩
    · have hc := hm.allowed
      rw [hst] at hc
      exact .inl ⟨row, hrow, hprep.symm, .inl (unresolved_of_canTransition_confirmed hc)⟩
    · rw [hprep] at hst
      cases hst

/-! ## The invariant -/

/-- The positions of `publish` between the second look at the drafts and the mark. -/
def Checked : PublishAt → Prop
  | .reviews _ | .recheck _ | .mark _ => True
  | _ => False

/-- A comment of an operation on `snapshot` that is launched or about to be. -/
structure Spent (home : DraftId → SnapshotId) (w : World) (snapshot : SnapshotId)
    (c : PreparedComment) : Prop where
  homed : home c.draft = snapshot
  reached : Reached home w c

/-- The review `q` may be launched for the operation of `p`. -/
structure Fresh (home : DraftId → SnapshotId) (w : World) (p q : PreparedReview) : Prop where
  spent : ∀ c ∈ q.comments, Spent home w q.snapshot c
  apart : ∀ id row, w.db.outbox.find id = some row → id ≠ p.id → Launched row →
    Apart row.data.prepared q

/-- `shelf` are the snapshots of the store the run began with. -/
structure Tracked (home : DraftId → SnapshotId) (shelf : SnapshotId → Option Snapshot)
    (w : World) : Prop where
  synced : ∀ x row, w.db.drafts.find x = some row → Synced home x row
  shelved : ∀ sid row, w.db.snapshots.find sid = some row → shelf sid = some row.data
  /-- The snapshot of an operation determines its target. -/
  drawn : ∀ id row, w.db.outbox.find id = some row →
    ∃ s, shelf row.data.prepared.snapshot = some s ∧ s.remote = some row.data.prepared.target
  spent : ∀ id row, w.db.outbox.find id = some row → Launched row →
    ∀ c ∈ row.data.prepared.comments, Spent home w row.data.prepared.snapshot c ∧
      (row.data.state = .confirmed → Closed w c)
  apart : ∀ id id' row row', w.db.outbox.find id = some row → w.db.outbox.find id' = some row' →
    id ≠ id' → Launched row → Launched row' → Apart row.data.prepared row'.data.prepared
  checked : ∀ t o p pos e, w.threads t = some (.publish o p pos) → Checked pos →
    publishEntry pos = some e → Fresh home w p e.prepared
  /-- A published draft is in a confirmed operation. -/
  shown : ∀ x row, w.db.drafts.find x = some row → row.data.published = true →
    ∃ id orow, w.db.outbox.find id = some orow ∧ orow.data.state = .confirmed ∧
      ∃ c ∈ orow.data.prepared.comments, Carries x row c
  /-- What was sent is what is stored, as far as drafts and versions go. -/
  sent : ∀ p ∈ w.sent, ∃ row, w.db.outbox.find p.id = some row ∧
    versionsOf p = versionsOf row.data.prepared

theorem Tracked.initial (h : w.Initial)
    (hshelf : ∀ sid, shelf sid = (w.db.snapshots.find sid).map SnapshotRow.data) :
    Tracked home shelf w where
  synced x row hrow := by
    rw [h.drafts, Table.find_empty] at hrow
    cases hrow
  shelved sid row hrow := by
    rw [hshelf, hrow]
    rfl
  drawn id row hrow := by
    rw [find_of_initial h] at hrow
    cases hrow
  spent id row hrow := by
    rw [find_of_initial h] at hrow
    cases hrow
  apart id id' row row' hrow := by
    rw [find_of_initial h] at hrow
    cases hrow
  checked t o p pos e ht := by
    rw [h.threads] at ht
    cases ht
  shown x row hrow := by
    rw [h.drafts, Table.find_empty] at hrow
    cases hrow
  sent p hp := by
    rw [h.sent] at hp
    cases hp

/-! ## Snapshots and targets -/

theorem Tracked.drawn_step (hd : Tracked home shelf w) (hg : Guarded hashes services reviews w)
    (hkeys : ∀ sid s, shelf sid = some s → s.id = sid)
    (hev : Composed hashes services reviews home w ev) (h : Change hashes services w ev w')
    {id : OperationId} {row' : OutboxRow} (hrow' : w'.db.outbox.find id = some row') :
    ∃ s, shelf row'.data.prepared.snapshot = some s ∧
      s.remote = some row'.data.prepared.target := by
  have hstep := h.row id
  rw [hrow'] at hstep
  generalize hbefore : w.db.outbox.find id = before at hstep
  cases hstep with
  | same => exact hd.drawn id row' hbefore
  | inserted hev' hid hv =>
    subst hev'
    obtain ⟨-, sid, s, drafts, verdict, summary, hsnap, hprep⟩ := hev
    obtain ⟨row, rows, hrow, rfl⟩ := snapshot_ok hsnap
    have hshelf := hd.shelved sid row hrow
    have hok := prepare_ok hprep
    refine ⟨row.data, ?_, hok.remote⟩
    rw [← hshelf]
    exact congrArg shelf (hok.snapshot.trans (hkeys sid row.data hshelf))
  | moved hid hm hw =>
    subst hid
    rw [hg.written hev.1 hw hbefore]
    exact hd.drawn _ _ hbefore

/-- Operations that have a draft in common have one target. -/
theorem target_eq_of_snapshot {s₁ s₂ : SnapshotId} {t₁ t₂ : RemoteTarget}
    (h₁ : ∃ s, shelf s₁ = some s ∧ s.remote = some t₁)
    (h₂ : ∃ s, shelf s₂ = some s ∧ s.remote = some t₂) (hs : s₁ = s₂) : t₁ = t₂ := by
  obtain ⟨s, hs₁, hr₁⟩ := h₁
  obtain ⟨s', hs₂, hr₂⟩ := h₂
  rw [hs, hs₂] at hs₁
  cases hs₁
  rw [hr₁] at hr₂
  cases hr₂
  rfl

theorem samePr_self (t : RemoteTarget) : samePr t t := by
  simp [samePr]

/-- The target of an entry in hand. -/
theorem Tracked.drawn_inHand (hd : Tracked home shelf w) (hg : Guarded hashes services reviews w)
    {e : OutboxEntry} (he : InHand w e) :
    ∃ s, shelf e.prepared.snapshot = some s ∧ s.remote = some e.prepared.target := by
  obtain ⟨row, hrow, hprep⟩ := hg.frozen e he
  rw [← hprep]
  exact hd.drawn _ row hrow

theorem ne_lock_of_entry {pos : PublishAt} {e : OutboxEntry} (he : publishEntry pos = some e) :
    pos ≠ .lock := by
  rintro rfl
  cases he

/-- Two publications with a draft in common are one. -/
theorem Tracked.apart_of_ne (hd : Tracked home shelf w) (hg : Guarded hashes services reviews w)
    (hc : CollisionFree hashes.sha256 (fingerprintKeys services reviews)) {t t' : Nat}
    {o o' : Outbox} {p p' : PreparedReview} {pos pos' : PublishAt} {e e' : OutboxEntry}
    (ht : w.threads t = some (.publish o p pos)) (ht' : w.threads t' = some (.publish o' p' pos'))
    (he : publishEntry pos = some e) (he' : publishEntry pos' = some e')
    (hh : ∀ c ∈ e.prepared.comments, home c.draft = e.prepared.snapshot)
    (hh' : ∀ c ∈ e'.prepared.comments, home c.draft = e'.prepared.snapshot) (htt : t ≠ t') :
    Apart e.prepared e'.prepared := by
  intro c hcm c' hcm' hdraft
  exfalso
  have hsnap : e.prepared.snapshot = e'.prepared.snapshot := by
    rw [← hh c hcm, ← hh' c' hcm', hdraft]
  have htarget := target_eq_of_snapshot (hd.drawn_inHand hg (.publish ht he))
    (hd.drawn_inHand hg (.publish ht' he')) hsnap
  obtain ⟨_, -, -, hb⟩ := hg.bound hc ht he
  obtain ⟨_, -, -, hb'⟩ := hg.bound hc ht' he'
  refine htt (hg.exclusive ht ht' (ne_lock_of_entry he) (ne_lock_of_entry he') ?_)
  rw [hb.target, hb'.target, htarget]

/-! ## Publications that may be launched -/

theorem Spent.step (h : Change hashes services w ev w')
    (hev : Composed hashes services reviews home w ev) (hd : Tracked home shelf w)
    {snapshot : SnapshotId} {c : PreparedComment} (hc : Spent home w snapshot c) :
    Spent home w' snapshot c :=
  ⟨hc.homed, hc.reached.step h hev hd.synced⟩

/-- What has just been marked is of another publication, or of this one. -/
theorem Tracked.fresh_kept (hd : Tracked home shelf w) (hg : Guarded hashes services reviews w)
    (hs : Sound w) (hc : CollisionFree hashes.sha256 (fingerprintKeys services reviews))
    (hev : Composed hashes services reviews home w ev) (h : Change hashes services w ev w')
    {t : Nat} {o : Outbox} {p : PreparedReview} {pos : PublishAt} {e : OutboxEntry}
    (ht : w.threads t = some (.publish o p pos)) (he : publishEntry pos = some e)
    (hf : Fresh home w p e.prepared) : Fresh home w' p e.prepared where
  spent c hcm := (hf.spent c hcm).step h hev hd
  apart id row' hrow' hid hl := by
    rcases hg.launched_before hs hev.1 h hrow' hl with
      ⟨row, hrow, hprep, hl⟩ | ⟨t', o', p', e', ht', he'⟩
    · rw [← hprep]
      exact hf.apart id row hrow hid hl
    · rw [← he']
      by_cases htt : t' = t
      · -- The operation of this very publication, which stands under its own id.
        subst htt
        rw [ht'] at ht
        cases ht
        have hkey := (hs.step h).keyed id row' hrow'
        rw [← he', hs.named _ _ _ _ e' ht' rfl] at hkey
        exact absurd hkey.symm hid
      · have hf' := hd.checked t' o' p' _ e' ht' trivial rfl
        exact hd.apart_of_ne hg hc ht' ht rfl he (fun c hcm => (hf'.spent c hcm).homed)
          (fun c hcm => (hf.spent c hcm).homed) htt

/-- The text of a comment: what is compared before sending and on confirmation. -/
def textOf (c : PreparedComment) : DraftId × Nat × String := (c.draft, c.version, c.body)

/-- A saved draft found again for a comment. -/
theorem stillSaved_row {db : Db} {sid : SnapshotId} {c : PreparedComment}
    (hs : ∀ x row, db.drafts.find x = some row → Synced home x row)
    (h : Outbox.stillSaved (Store.drafts db sid) c) :
    ∃ row, db.drafts.find c.draft = some row ∧ home c.draft = sid ∧
      row.data.version = c.version ∧ row.data.body = c.body ∧ row.data.published = false := by
  obtain ⟨d, hd, hmatch⟩ := List.any_eq_true.mp h
  obtain ⟨row, hrow, rfl⟩ := List.mem_map.mp hd
  obtain ⟨hrow, hsid⟩ := List.mem_filter.mp hrow
  obtain ⟨x, hx⟩ := Table.mem_rows_iff.mp hrow
  have hsync := hs x row hx
  simp only [Bool.and_eq_true, decide_eq_true_eq, Bool.not_eq_true'] at hmatch hsid
  obtain ⟨⟨⟨⟨hid, hversion⟩, hbody⟩, hpub⟩, -⟩ := hmatch
  obtain rfl : x = c.draft := hsync.id.symm.trans hid
  exact ⟨row, hx, hsync.homed.symm.trans hsid, hversion, hbody, hpub⟩

/-- **A publication whose drafts are still there as previewed may be launched.** -/
theorem Tracked.fresh_of_saved (hd : Tracked home shelf w) (hg : Guarded hashes services reviews w)
    {t : Nat} {o : Outbox} {p : PreparedReview} {e : OutboxEntry}
    (ht : w.threads t = some (.publish o p (.drafts e))) (htarget : p.target = e.prepared.target)
    (hsnap : p.snapshot = e.prepared.snapshot)
    (htexts : p.comments.map textOf = e.prepared.comments.map textOf)
    (hsaved : Outbox.draftsSaved w.db p) : Fresh home w p e.prepared := by
  have hrows : ∀ c ∈ e.prepared.comments, ∃ row, w.db.drafts.find c.draft = some row ∧
      home c.draft = e.prepared.snapshot ∧ row.data.version = c.version ∧
      row.data.body = c.body ∧ row.data.published = false := by
    intro c hcm
    have htext : textOf c ∈ p.comments.map textOf := htexts ▸ List.mem_map_of_mem hcm
    obtain ⟨c₀, hc₀, heq⟩ := List.mem_map.mp htext
    simp only [textOf, Prod.mk.injEq] at heq
    obtain ⟨row, hrow⟩ := stillSaved_row hd.synced (List.all_eq_true.mp hsaved c₀ hc₀)
    rw [heq.1, heq.2.1, heq.2.2, hsnap] at hrow
    exact ⟨row, hrow⟩
  refine ⟨?_, ?_⟩
  · intro c hcm
    obtain ⟨row, hrow, hhome, hversion, hbody, -⟩ := hrows c hcm
    refine ⟨hhome, ?_⟩
    unfold Reached
    rw [hrow]
    exact .inr ⟨hversion.symm, hbody⟩
  · intro id orow horow hid hl c' hcm' c hcm hdraft hversion
    obtain ⟨row, hrow, hhome, hv, -, hpub⟩ := hrows c hcm
    obtain ⟨hspent, hclosed⟩ := hd.spent id orow horow hl c' hcm'
    have hsame : orow.data.prepared.snapshot = e.prepared.snapshot := by
      rw [← hspent.homed, ← hhome, hdraft]
    have htargets := target_eq_of_snapshot (hd.drawn id orow horow)
      (hd.drawn_inHand hg (.publish ht rfl)) hsame
    -- The other operation is on the same pull request, so it is resolved: it was confirmed.
    have hpr : samePr orow.data.prepared.target p.target := by
      rw [htargets, htarget]
      exact samePr_self _
    rcases hl with hu | hconf
    · exact hg.clear t o p _ ht trivial id orow horow hid hpr hu
    · have hshown := hclosed hconf row (hdraft ▸ hrow) (hv.trans hversion.symm)
      rw [hpub] at hshown
      cases hshown

/-! ## Providers spell out the texts -/

/-- A payload that two reviews have in common has the texts of their comments. -/
def Spells (services : Services) : Prop :=
  ∀ π o rules p q, services.outboxes π = some o → rules ∈ services.providers →
    rules.id = o.rules.id → o.rules.payload p = rules.payload q →
    p.comments.map PreparedComment.body = q.comments.map PreparedComment.body

theorem github_payload_bodies {p q : PreparedReview} (h : Github.payload p = Github.payload q) :
    p.comments.map PreparedComment.body = q.comments.map PreparedComment.body := by
  have hbody : ∀ c : PreparedComment,
      ((Github.payloadComment c).get "body").asStr = some c.body := by
    intro c
    unfold Github.payloadComment
    split <;> simp [Json.get]
  have hmap : ∀ r : PreparedReview, (r.comments.map Github.payloadComment).map
      (fun j => ((j.get "body").asStr).getD "") = r.comments.map PreparedComment.body := by
    intro r
    rw [List.map_map]
    apply List.map_congr_left
    intro c _
    simp [hbody]
  simp only [Github.payload, Json.obj.injEq, List.cons.injEq, Prod.mk.injEq, true_and, and_true,
    Json.arr.injEq] at h
  rw [← hmap, ← hmap, h.2.2.2]

theorem gitlab_payload_bodies {p q : PreparedReview} (h : Gitlab.payload p = Gitlab.payload q) :
    p.comments.map PreparedComment.body = q.comments.map PreparedComment.body := by
  have hbody : ∀ c : PreparedComment, ((c.toJson).get "body").asStr = some c.body := by
    intro c
    unfold PreparedComment.toJson
    cases c.position <;> simp [Json.get, skipNone]
  have hmap : ∀ r : PreparedReview, (r.comments.map PreparedComment.toJson).map
      (fun j => ((j.get "body").asStr).getD "") = r.comments.map PreparedComment.body := by
    intro r
    rw [List.map_map]
    apply List.map_congr_left
    intro c _
    simp [hbody]
  simp only [Gitlab.payload, Json.obj.injEq, List.cons.injEq, Prod.mk.injEq, true_and, and_true,
    Json.arr.injEq] at h
  rw [← hmap, ← hmap, h.2.2.2]

/-- The program has outboxes for GitHub and GitLab. -/
theorem newWithProviders_outbox {writes gitlabWrites gh glab : Bool} {π : ProviderId} {o : Outbox}
    (h : (Services.newWithProviders hashes writes gitlabWrites gh glab).outboxes π = some o) :
    o.rules = Github.rules ∨ o.rules = Gitlab.rules hashes := by
  simp only [Services.newWithProviders, Services.register, Function.update_apply,
    Services.empty] at h
  split at h
  · split at h <;> cases h
    rename_i hwrites
    cases hwrites.1
  split at h
  · split at h <;> cases h
    exact .inr rfl
  split at h
  · split at h <;> cases h
    exact .inl rfl
  · cases h

theorem newWithProviders_spells (hashes : Hashes) (writes gitlabWrites gh glab : Bool) :
    Spells (Services.newWithProviders hashes writes gitlabWrites gh glab) := by
  intro π o rules p q ho hrules hid hpayload
  have hmem : rules ∈ [Entire.rules, Gitlab.rules hashes, Github.rules] := hrules
  simp only [List.mem_cons, List.not_mem_nil, or_false] at hmem
  rcases newWithProviders_outbox ho with hgithub | hgitlab
  · rw [hgithub] at hid hpayload
    rcases hmem with rfl | rfl | rfl
    · exact absurd hid (by decide)
    · exact absurd hid (show ProviderId.gitlab ≠ ProviderId.github by decide)
    · exact github_payload_bodies hpayload
  · rw [hgitlab] at hid hpayload
    rcases hmem with rfl | rfl | rfl
    · exact absurd hid (show ProviderId.entire ≠ ProviderId.gitlab by decide)
    · exact gitlab_payload_bodies hpayload
    · exact absurd hid (show ProviderId.github ≠ ProviderId.gitlab by decide)

theorem map_textOf {p q : PreparedReview} (hv : versionsOf p = versionsOf q)
    (hb : p.comments.map PreparedComment.body = q.comments.map PreparedComment.body) :
    p.comments.map textOf = q.comments.map textOf := by
  unfold versionsOf at hv
  generalize p.comments = cs at hv hb ⊢
  generalize q.comments = cs' at hv hb ⊢
  induction cs generalizing cs' with
  | nil =>
    cases cs' with
    | nil => rfl
    | cons => cases hv
  | cons c cs ih =>
    cases cs' with
    | nil => cases hv
    | cons c' cs' =>
      simp only [List.map_cons, List.cons.injEq, Prod.mk.injEq] at hv hb ⊢
      refine ⟨?_, ih cs' hv.2 hb.2⟩
      rw [textOf, textOf, hv.1.1, hv.1.2, hb.1]

/-- The review that is being published has the texts of the stored one. -/
theorem Guarded.texts (hg : Guarded hashes services reviews w)
    (hc : CollisionFree hashes.sha256 (fingerprintKeys services reviews)) (hsp : Spells services)
    {t : Nat} {o : Outbox} {p : PreparedReview} {pos : PublishAt} {e : OutboxEntry}
    (ht : w.threads t = some (.publish o p pos)) (he : publishEntry pos = some e) :
    p.comments.map textOf = e.prepared.comments.map textOf := by
  obtain ⟨rules, hrules, hv, hb⟩ := hg.bound hc ht he
  have ho := (hg.served t o p pos ht).1
  have hid : rules.id = o.rules.id := by
    rw [verify_provider hv, ← hb.target, verify_provider (hg.faithful t o p pos e ht he).1]
  exact map_textOf hb.versions (hsp _ o rules p e.prepared ho hrules hid hb.payload)

/-! ## Steps -/

theorem Tracked.checked_step (hd : Tracked home shelf w) (hg : Guarded hashes services reviews w)
    (hs : Sound w) (hc : CollisionFree hashes.sha256 (fingerprintKeys services reviews))
    (hsp : Spells services) (hev : Composed hashes services reviews home w ev)
    (h : Change hashes services w ev w') {t : Nat} {o : Outbox} {p : PreparedReview}
    {pos : PublishAt} {e : OutboxEntry} (ht' : w'.threads t = some (.publish o p pos))
    (hpos : Checked pos) (he : publishEntry pos = some e) : Fresh home w' p e.prepared := by
  rcases h.thread ht' with hold | harr
  · exact hd.fresh_kept hg hs hc hev h hold he (hd.checked t o p pos e hold hpos he)
  cases harr with
  | lock => exact hpos.elim
  | read => exact hpos.elim
  | send => exact hpos.elim
  | sending => exact hpos.elim
  | goto hbefore hm =>
    cases hm with
    | saved hsaved =>
      cases he
      obtain ⟨_, -, -, hb⟩ := hg.bound hc hbefore rfl
      have hf := hd.fresh_of_saved hg hbefore hb.target hb.snapshot (hg.texts hc hsp hbefore rfl)
        hsaved
      exact hd.fresh_kept hg hs hc hev h hbefore rfl hf
    | listed =>
      rename_i e₀ rs
      cases he
      have hf := hd.checked t o p _ e₀ hbefore trivial rfl
      have hkept := hd.fresh_kept hg hs hc hev h hbefore rfl hf
      exact hkept
    | again =>
      rename_i e₀
      cases he
      have hf := hd.checked t o p _ e₀ hbefore trivial rfl
      have hkept := hd.fresh_kept hg hs hc hev h hbefore rfl hf
      exact hkept
    | answered =>
      rename_i out
      cases out <;> simp only [Outbox.sent] at hpos
      · split at hpos <;> exact hpos.elim
      · exact hpos.elim
      · exact hpos.elim
    | _ => exact hpos.elim

theorem Tracked.spent_step (hd : Tracked home shelf w) (hg : Guarded hashes services reviews w)
    (hs : Sound w) (hev : Composed hashes services reviews home w ev)
    (h : Change hashes services w ev w') {id : OperationId} {row' : OutboxRow}
    (hrow' : w'.db.outbox.find id = some row') (hl : Launched row') {c : PreparedComment}
    (hcm : c ∈ row'.data.prepared.comments) : Spent home w' row'.data.prepared.snapshot c := by
  rcases hg.launched_before hs hev.1 h hrow' hl with ⟨row, hrow, hprep, hl⟩ | ⟨t, o, p, e, ht, he⟩
  · rw [← hprep] at hcm ⊢
    exact (hd.spent id row hrow hl c hcm).1.step h hev hd
  · rw [← he] at hcm ⊢
    exact ((hd.checked t o p _ e ht trivial rfl).spent c hcm).step h hev hd

theorem Tracked.closed_step (hd : Tracked home shelf w) (hg : Guarded hashes services reviews w)
    (hev : Composed hashes services reviews home w ev) (h : Change hashes services w ev w')
    {id : OperationId} {row' : OutboxRow} (hrow' : w'.db.outbox.find id = some row')
    (hst : row'.data.state = .confirmed) {c : PreparedComment}
    (hcm : c ∈ row'.data.prepared.comments) : Closed w' c := by
  rcases hg.before hev.1 h hrow' with ⟨row, hrow, hprep, rfl | ⟨hm, -⟩⟩ | ⟨hprepared, -⟩
  · obtain ⟨hspent, hclosed⟩ := hd.spent id row' hrow (.inr hst) c hcm
    exact (hclosed hst).step h hev hd.synced hspent.reached
  · have hallowed := hm.allowed
    rw [hst] at hallowed
    have hl : Launched row := .inl (unresolved_of_canTransition_confirmed hallowed)
    have hspent := (hd.spent id row hrow hl c (hprep ▸ hcm)).1
    exact hm.closed hst hd.synced hcm hspent.reached
  · rw [hprepared] at hst
    cases hst

theorem Tracked.apart_marked (hd : Tracked home shelf w) (hs : Sound w)
    (h : Change hashes services w ev w') {id id' : OperationId} {row row' : OutboxRow}
    (hrow : w.db.outbox.find id = some row) (hrow' : w'.db.outbox.find id' = some row')
    (hid : id ≠ id') (hl : Launched row) {t : Nat} {o : Outbox} {p : PreparedReview}
    {e : OutboxEntry} (ht : w.threads t = some (.publish o p (.mark e)))
    (he : e.prepared = row'.data.prepared) : Apart row.data.prepared row'.data.prepared := by
  have hkey := (hs.step h).keyed id' row' hrow'
  rw [← he, hs.named t o p _ e ht rfl] at hkey
  rw [← he]
  exact (hd.checked t o p _ e ht trivial rfl).apart id row hrow (hkey ▸ hid) hl

theorem Tracked.apart_step (hd : Tracked home shelf w) (hg : Guarded hashes services reviews w)
    (hs : Sound w) (hc : CollisionFree hashes.sha256 (fingerprintKeys services reviews))
    (hev : Composed hashes services reviews home w ev) (h : Change hashes services w ev w')
    {id id' : OperationId} {row row' : OutboxRow} (hrow : w'.db.outbox.find id = some row)
    (hrow' : w'.db.outbox.find id' = some row') (hid : id ≠ id') (hl : Launched row)
    (hl' : Launched row') : Apart row.data.prepared row'.data.prepared := by
  rcases hg.launched_before hs hev.1 h hrow hl with ⟨r, hr, hprep, hrl⟩ | ⟨t, o, p, e, ht, he⟩
  · rcases hg.launched_before hs hev.1 h hrow' hl' with
      ⟨r', hr', hprep', hrl'⟩ | ⟨t', o', p', e', ht', he'⟩
    · rw [← hprep, ← hprep']
      exact hd.apart id id' r r' hr hr' hid hrl hrl'
    · rw [← hprep]
      exact hd.apart_marked hs h hr hrow' hid hrl ht' he'
  · rcases hg.launched_before hs hev.1 h hrow' hl' with
      ⟨r', hr', hprep', hrl'⟩ | ⟨t', o', p', e', ht', he'⟩
    · rw [← hprep']
      exact (hd.apart_marked hs h hr' hrow hid.symm hrl' ht he).symm
    · rw [← he, ← he']
      by_cases htt : t = t'
      · -- One thread marks one row.
        subst htt
        rw [ht] at ht'
        cases ht'
        rw [← (hs.step h).keyed id row hrow, ← (hs.step h).keyed id' row' hrow', ← he, ← he'] at hid
        exact absurd rfl hid
      · have hf := hd.checked t o p _ e ht trivial rfl
        have hf' := hd.checked t' o' p' _ e' ht' trivial rfl
        exact hd.apart_of_ne hg hc ht ht' rfl rfl (fun c hcm => (hf.spent c hcm).homed)
          (fun c hcm => (hf'.spent c hcm).homed) htt

theorem Tracked.shown_step (hd : Tracked home shelf w) (h : Change hashes services w ev w')
    {x : DraftId} {row' : DraftRow} (hrow' : w'.db.drafts.find x = some row')
    (hpub : row'.data.published = true) :
    ∃ id orow, w'.db.outbox.find id = some orow ∧ orow.data.state = .confirmed ∧
      ∃ c ∈ orow.data.prepared.comments, Carries x row' c := by
  have hkept : ∀ row, w.db.drafts.find x = some row → row.data.published = true →
      ∃ id orow, w'.db.outbox.find id = some orow ∧ orow.data.state = .confirmed ∧
        ∃ c ∈ orow.data.prepared.comments, Carries x row c := by
    intro row hrow hp
    obtain ⟨id, orow, horow, hst, hc⟩ := hd.shown x row hrow hp
    exact ⟨id, orow, outcome_kept h horow (.inl hst), hst, hc⟩
  have hstep := h.draft (fun x row hrow => (hd.synced x row hrow).id) x
  rw [hrow'] at hstep
  generalize hbefore : w.db.drafts.find x = before at hstep
  generalize hafter : some row' = after at hstep
  cases hstep with
  | same =>
    subst hafter
    exact hkept row' hbefore hpub
  | saved hev' hid hsave hover =>
    cases hafter
    rw [savedRow_data, (saveDraft_ok hsave).unpublished] at hpub
    cases hpub
  | published hm hst =>
    rename_i row e orow
    cases hafter
    unfold publishedBy at hpub ⊢
    split
    · rename_i hcarried
      refine ⟨e.prepared.id, ⟨e.state, e⟩, (hm.find _).trans (if_pos rfl), hst, ?_⟩
      obtain ⟨c, hcm, hc⟩ := hcarried
      exact ⟨c, hcm, hc⟩
    · rename_i hcarried
      rw [if_neg hcarried] at hpub
      exact hkept row hbefore hpub
  | discarded => cases hafter
  | pruned => cases hafter

theorem Tracked.sent_step (hd : Tracked home shelf w) (hg : Guarded hashes services reviews w)
    (hc : CollisionFree hashes.sha256 (fingerprintKeys services reviews))
    (hev : Composed hashes services reviews home w ev) (h : Change hashes services w ev w')
    {p : PreparedReview} (hp : p ∈ w'.sent) :
    ∃ row, w'.db.outbox.find p.id = some row ∧ versionsOf p = versionsOf row.data.prepared := by
  have hstored : ∃ row, w.db.outbox.find p.id = some row ∧
      versionsOf p = versionsOf row.data.prepared := by
    rcases h.calls with hsent | ⟨t, o, q, e, ht, -, hsent⟩
    · exact hd.sent p (hsent ▸ hp)
    · rw [hsent] at hp
      rcases List.mem_cons.mp hp with rfl | hp
      · obtain ⟨row, hrow, hprep⟩ := hg.frozen e (.publish ht rfl)
        obtain ⟨_, -, -, hb⟩ := hg.bound hc ht rfl
        rw [← hb.id] at hrow
        exact ⟨row, hrow, hprep ▸ hb.versions⟩
      · exact hd.sent p hp
  obtain ⟨row, hrow, hv⟩ := hstored
  obtain ⟨row', hrow', hprep⟩ := hg.prepared_kept hev.1 h hrow
  exact ⟨row', hrow', hprep ▸ hv⟩

theorem Tracked.step (hd : Tracked home shelf w) (hg : Guarded hashes services reviews w)
    (hs : Sound w) (hc : CollisionFree hashes.sha256 (fingerprintKeys services reviews))
    (hsp : Spells services) (hkeys : ∀ sid s, shelf sid = some s → s.id = sid)
    (hev : Composed hashes services reviews home w ev) (h : Change hashes services w ev w') :
    Tracked home shelf w' where
  synced _ _ hrow := Synced.step h hev hd.synced hrow
  shelved sid row' hrow' := by
    obtain ⟨row, hrow, hdata⟩ := h.snapshot hrow'
    rw [← hdata]
    exact hd.shelved sid row hrow
  drawn _ _ hrow := hd.drawn_step hg hkeys hev h hrow
  spent _ _ hrow hl _ hcm :=
    ⟨hd.spent_step hg hs hev h hrow hl hcm, fun hst => hd.closed_step hg hev h hrow hst hcm⟩
  apart _ _ _ _ hrow hrow' hid hl hl' := hd.apart_step hg hs hc hev h hrow hrow' hid hl hl'
  checked _ _ _ _ _ ht hpos he := hd.checked_step hg hs hc hsp hev h ht hpos he
  shown _ _ hrow hpub := hd.shown_step h hrow hpub
  sent _ hp := hd.sent_step hg hc hev h hp

/-! ## Runs -/

/-- Of everything above, what a run keeps. -/
structure Kept (hashes : Hashes) (services : Services) (reviews : Set PreparedReview)
    (home : DraftId → SnapshotId) (shelf : SnapshotId → Option Snapshot) (w : World) : Prop where
  sound : Sound w
  once : Once w
  guarded : Guarded hashes services reviews w
  tracked : Tracked home shelf w

theorem Kept.run {w₀ : World} {es : List Event}
    (hc : CollisionFree hashes.sha256 (fingerprintKeys services reviews)) (hsp : Spells services)
    (h₀ : w₀.Initial)
    (h : (World.system hashes services).Steps (Composed hashes services reviews home) w₀ es w) :
    Kept hashes services reviews home
      (fun sid => (w₀.db.snapshots.find sid).map SnapshotRow.data) w := by
  have hkeys : ∀ sid s, (w₀.db.snapshots.find sid).map SnapshotRow.data = some s → s.id = sid := by
    intro sid s hshelf
    obtain ⟨row, hrow, rfl⟩ := Option.map_eq_some_iff.mp hshelf
    exact h₀.snapshots sid row hrow
  refine h.invariant ?_ ⟨.initial h₀, .initial h₀, .initial h₀, .initial h₀ fun _ => rfl⟩
  intro w ev w' hev he hk
  have hch := change_of_step he
  exact ⟨hk.sound.step hch, hk.once.step hch hk.sound, hk.guarded.step hk.sound hc hev.1 hch,
    hk.tracked.step hk.guarded hk.sound hc hsp hkeys hev hch⟩

/-- A row that has left `Prepared` and was not refused is launched. -/
theorem launched_of_began {row : OutboxRow} (hb : row.data.state ≠ .prepared)
    (hr : row.data.state ≠ .rejected) : Launched row := by
  unfold Launched Unresolved
  cases hst : row.data.state with
  | prepared => exact absurd hst hb
  | inFlight => exact .inl (.inl rfl)
  | confirmed => exact .inr rfl
  | rejected => exact absurd hst hr
  | unknownOutcome => exact .inl (.inr rfl)

/-- **No text is sent twice.** In every state the program reaches: two operations that were sent,
neither of which was rejected, have no version of a draft in common; and a draft that is published
is in a confirmed operation, with its version and its text. -/
theorem run_sends_no_text_twice {writes gitlabWrites gh glab : Bool} {w₀ : World}
    {es : List Event}
    (hc : CollisionFree hashes.sha256 (fingerprintKeys
      (Services.newWithProviders hashes writes gitlabWrites gh glab) reviews))
    (h₀ : w₀.Initial)
    (h : (World.system hashes
      (Services.newWithProviders hashes writes gitlabWrites gh glab)).Steps
        (Composed hashes (Services.newWithProviders hashes writes gitlabWrites gh glab) reviews home)
        w₀ es w) :
    (∀ p ∈ w.sent, ∀ q ∈ w.sent, p.id ≠ q.id →
      (∀ row, w.db.outbox.find p.id = some row → row.data.state ≠ .rejected) →
      (∀ row, w.db.outbox.find q.id = some row → row.data.state ≠ .rejected) →
      ∀ c ∈ p.comments, ∀ c' ∈ q.comments, (c.draft, c.version) ≠ (c'.draft, c'.version)) ∧
    ∀ x row, w.db.drafts.find x = some row → row.published ∨ row.data.published →
      ∃ id orow, w.db.outbox.find id = some orow ∧ orow.data.state = .confirmed ∧
        ∃ c ∈ orow.data.prepared.comments,
          c.draft = x ∧ c.version = row.data.version ∧ c.body = row.data.body := by
  have hk := Kept.run hc (newWithProviders_spells hashes writes gitlabWrites gh glab) h₀ h
  constructor
  · intro p hp q hq hid hpr hqr c hcm c' hcm' heq
    obtain ⟨row, hrow, hv⟩ := hk.tracked.sent p hp
    obtain ⟨row', hrow', hv'⟩ := hk.tracked.sent q hq
    have hl : ∀ {p : PreparedReview} {row : OutboxRow}, p ∈ w.sent →
        w.db.outbox.find p.id = some row → row.data.state ≠ .rejected → Launched row := by
      intro p row hp hrow hr
      obtain ⟨r, hr', hb⟩ := hk.once.began p hp
      rw [hrow] at hr'
      cases hr'
      exact launched_of_began hb hr
    have hapart := hk.tracked.apart p.id q.id row row' hrow hrow' hid (hl hp hrow (hpr row hrow))
      (hl hq hrow' (hqr row' hrow'))
    have hmem : (c.draft, c.version) ∈ versionsOf row.data.prepared :=
      hv ▸ List.mem_map.mpr ⟨c, hcm, rfl⟩
    have hmem' : (c'.draft, c'.version) ∈ versionsOf row'.data.prepared :=
      hv' ▸ List.mem_map.mpr ⟨c', hcm', rfl⟩
    obtain ⟨d, hdm, hdeq⟩ := List.mem_map.mp hmem
    obtain ⟨d', hdm', hdeq'⟩ := List.mem_map.mp hmem'
    rw [heq, ← hdeq'] at hdeq
    exact hapart d hdm d' hdm' (congrArg Prod.fst hdeq) (congrArg Prod.snd hdeq)
  · intro x row hrow hpub
    have hsync := hk.tracked.synced x row hrow
    rw [hsync.published, or_self] at hpub
    obtain ⟨id, orow, horow, hst, c, hcm, hdraft, hversion, hbody⟩ :=
      hk.tracked.shown x row hrow hpub
    exact ⟨id, orow, horow, hst, c, hcm, hdraft, hversion.symm, hbody.symm⟩

/-! ### A confirmed publication -/

/-- The program with GitHub publication enabled. -/
def githubServices : Services := Services.newWithProviders sampleHashes true false true false

/-- What GitHub answers to the first review, and the comment it then lists. -/
def sampleResponse : Json :=
  .obj [("id", .num 9), ("commit_id", .str "c3"), ("state", .str "APPROVED"), ("body", .str ""),
    ("user", .obj [("login", .str "alice")])]

def sampleListed : Json :=
  .obj [("path", .str "x"), ("body", .str "note d1"), ("line", .num 1), ("side", .str "RIGHT")]

def confirmedRun : List Event :=
  [.openStore [], .prune true, .saveDraft sampleDraft true,
    .insertPrepared Github.rules firstReview true] ++
  samplePublication 0 firstReview (.accepted sampleResponse) ++
  [.step 0 (.comments [sampleListed]), .step 0 .done]

/-- What the two conditions that look at the store come to here. -/
def confirmedCheck (w : World) : Event → Bool
  | .saveDraft d _ => d.id ∉ w.discarded
  | .insertPrepared _ _ _ =>
    (w.db.snapshots.find sampleSnapshot.id).any fun row => row.data = sampleSnapshot
  | _ => true

theorem composed_confirmedRun : ∀ w, ∀ ev ∈ confirmedRun, confirmedCheck w ev →
    Composed sampleHashes githubServices {firstReview} (fun _ => sampleSnapshot.id) w ev := by
  intro w
  have hprov : githubServices.providerFor firstReview.target.provider = some Github.rules := rfl
  have ho : githubServices.outboxes firstReview.target.provider = some sampleOutbox := rfl
  have hhome : sampleDraft.snapshot = sampleSnapshot.id := rfl
  have hfrom : (w.db.snapshots.find sampleSnapshot.id).any (fun row => row.data = sampleSnapshot) →
      PreparedFrom sampleHashes Github.rules w.db firstReview := by
    intro hany
    obtain ⟨row, hrow, hdata⟩ := (Option.any_eq_true _ _).mp hany
    simp only [decide_eq_true_eq] at hdata
    have hread : Store.snapshot sampleHashes w.db sampleSnapshot.id = .ok (Store.overlaid
        sampleSnapshot (Store.blameRows w.db sampleSnapshot.id
          (releasesKey sampleHashes.sha256 sampleSnapshot.overview.releases))) := by
      rw [Store.snapshot, hrow]
      dsimp only
      rw [hdata, if_pos sampleSnapshot_verified]
    exact ⟨_, _, [sampleDraft], .approve, "", hread, firstReview_prepared⟩
  have hone : firstReview ∈ ({firstReview} : Set PreparedReview) := rfl
  simp only [confirmedRun, samplePublication, List.cons_append, List.nil_append,
    List.forall_mem_cons, confirmedCheck, Composed, Served]
  simp only [hprov, ho, hone, hhome, and_self, true_and, and_true, decide_eq_true_eq, imp_self,
    implies_true, List.not_mem_nil, false_imp_iff]
  exact ⟨fun hfresh _ => hfresh, hfrom⟩

theorem firstReview_fingerprint_entire : firstReview.computeFingerprint sampleHashes Entire.rules =
    "00fac7c1d494268af4817577600fc57501f9978bf2acd1040eb2df067bac01af" := by
  rw [computeFingerprint_written]
  decide +kernel

theorem firstReview_fingerprint_gitlab :
    firstReview.computeFingerprint sampleHashes (Gitlab.rules sampleHashes) =
      "fed53d9ed9533d72c8b7b964d5bc5dd4aaa0856166a8afc448e46ac20afeedcb" := by
  rw [computeFingerprint_written]
  decide +kernel

/-- The review is hashed under the rules of each provider. -/
theorem firstReview_collisionFree :
    CollisionFree sampleHashes.sha256 (fingerprintKeys githubServices {firstReview}) := by
  apply collisionFree_of_nodup [fingerprintKey Entire.rules firstReview,
    fingerprintKey (Gitlab.rules sampleHashes) firstReview, fingerprintKey Github.rules firstReview]
  · rintro b ⟨rules, hrules, p, rfl, rfl⟩
    have hmem : rules ∈ [Entire.rules, Gitlab.rules sampleHashes, Github.rules] := hrules
    exact List.mem_map_of_mem (f := fun r => fingerprintKey r firstReview) hmem
  · apply fingerprintKeys_nodup [(Entire.rules, firstReview),
      (Gitlab.rules sampleHashes, firstReview), (Github.rules, firstReview)]
    simp only [List.map_cons, List.map_nil, firstReview_fingerprint, firstReview_fingerprint_entire,
      firstReview_fingerprint_gitlab]
    decide

/-- The entry GitHub's answer leaves to verify. -/
def acceptedEntry : OutboxEntry := { markedEntry firstReview with remoteId := some 9 }

def confirmedEntry : OutboxEntry := { acceptedEntry with state := .confirmed }

theorem accepted_confirmed : Outbox.verified Github.rules firstReview acceptedEntry sampleResponse
    (some [sampleListed]) = confirmedEntry := by
  have hmatches : matchesReview firstReview sampleResponse [sampleListed] Github.rules.marksReviews =
      true := by
    decide +kernel
  simp [Outbox.verified, hmatches, confirmedEntry, acceptedEntry, markedEntry, Outbox.marked,
    Outbox.baseline, newEntry]

theorem steps_confirmedRun : ∃ w,
    (World.system sampleHashes githubServices).Steps (Composed sampleHashes githubServices
      {firstReview} fun _ => sampleSnapshot.id) sampleWorld confirmedRun w ∧
    w.sent = [firstReview] ∧ (w.db.drafts.find ⟨"d1"⟩).any DraftRow.published := by
  have hinserted : (World.system sampleHashes githubServices).Steps (Composed sampleHashes
      githubServices {firstReview} fun _ => sampleSnapshot.id) sampleWorld insertion insertedWorld := by
    refine steps_insertedWorld githubServices ?_
    intro w ev hev hsnapshots hdiscarded
    refine composed_confirmedRun w ev (List.mem_append_left _ (List.mem_append_left _ hev)) ?_
    simp only [insertion, List.mem_cons, List.not_mem_nil, or_false] at hev
    rcases hev with rfl | rfl | rfl | rfl
    · rfl
    · rfl
    · simp [confirmedCheck, hdiscarded]
    · rw [confirmedCheck, hsnapshots]
      exact decide_eq_true (rfl : sampleSnapshot = sampleSnapshot)
  obtain ⟨w₁, hs₁, hw₁⟩ := publication_sends githubServices firstReview_unobstructed
  have haccepted : Outbox.publishMove sampleHashes sampleOutbox.rules
      (markedWorld insertedWorld firstReview).db firstReview (.sending (markedEntry firstReview))
      (.outcome (.accepted sampleResponse)) =
        some (.goto (.verify acceptedEntry sampleResponse)) := rfl
  obtain ⟨w₂, hs₂, hw₂⟩ := hw₁.move githubServices (by simp) haccepted
  have hlisted : Outbox.publishMove sampleHashes sampleOutbox.rules
      (markedWorld insertedWorld firstReview).db firstReview (.verify acceptedEntry sampleResponse)
      (.comments [sampleListed]) = some (.goto (.finish confirmedEntry)) := by
    rw [← accepted_confirmed]
    rfl
  obtain ⟨w₃, hs₃, hw₃⟩ := hw₂.move githubServices (by simp) hlisted
  have hdb : Store.writeTransition sampleHashes (markedWorld insertedWorld firstReview).db
      confirmedEntry none = .ok _ :=
    writeTransition_confirmed rfl rfl rfl rfl rfl
  obtain ⟨w, hs₄, -, hdb₄, hsent, -⟩ := hw₃.finish githubServices firstReview_verified hdb
  have hpublication := hs₁.append <| .cons trivial hs₂ <| .cons trivial hs₃ <|
    .cons trivial hs₄ .nil
  have hcheck : ∀ w, ∀ ev ∈ publication 0 sampleOutbox firstReview ++ [.step 0 .done] ++
      [.step 0 (.outcome (.accepted sampleResponse)), .step 0 (.comments [sampleListed]),
        .step 0 .done], confirmedCheck w ev := by
    simp [publication, confirmedCheck]
  refine ⟨w, hinserted.append (hpublication.of_mem ?_), hsent, ?_⟩
  · intro w ev hev
    exact composed_confirmedRun w ev (List.mem_append_right insertion hev) (hcheck w ev hev)
  · rw [hdb₄]
    decide +kernel

theorem confirmedRun_sends_no_text_twice : ∃ w,
    (World.system sampleHashes githubServices).Steps (Composed sampleHashes githubServices
      {firstReview} fun _ => sampleSnapshot.id) sampleWorld confirmedRun w ∧
    w.sent = [firstReview] ∧ (w.db.drafts.find ⟨"d1"⟩).any DraftRow.published ∧
    (∀ p ∈ w.sent, ∀ q ∈ w.sent, p.id ≠ q.id →
      (∀ row, w.db.outbox.find p.id = some row → row.data.state ≠ .rejected) →
      (∀ row, w.db.outbox.find q.id = some row → row.data.state ≠ .rejected) →
      ∀ c ∈ p.comments, ∀ c' ∈ q.comments, (c.draft, c.version) ≠ (c'.draft, c'.version)) ∧
    ∀ x row, w.db.drafts.find x = some row → row.published ∨ row.data.published →
      ∃ id orow, w.db.outbox.find id = some orow ∧ orow.data.state = .confirmed ∧
        ∃ c ∈ orow.data.prepared.comments,
          c.draft = x ∧ c.version = row.data.version ∧ c.body = row.data.body := by
  obtain ⟨w, hsteps, hsent, hpublished⟩ := steps_confirmedRun
  exact ⟨w, hsteps, hsent, hpublished,
    run_sends_no_text_twice firstReview_collisionFree sampleWorld_initial hsteps⟩

end Proof
end Diffz
