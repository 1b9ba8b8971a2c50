import Diffz.Proof.Store.Identity
import Diffz.Ui.ReviewFlow

/-!
# A draft that counts as saved is saved

Three parties hold copies of a draft: the session, the saves under way, and the store. The session's
copy is the newest, and a version has one text: what is under way or stored is an earlier version, or
the same version with the same text (`Precedes`). An acknowledged version was stored, and the store
never goes back. So when the last version is acknowledged it is the one that is stored.
-/

set_option autoImplicit false

namespace Diffz
namespace Proof

variable {hashes : Hashes} {w w' w₁ w₂ : Flow} {ev : FlowEvent} {id : DraftId}

/-! ## Versions -/

/-- `a` is an earlier version than `b`, or the same one. -/
structure Precedes (a b : Draft) : Prop where
  version : a.version ≤ b.version
  body : a.version = b.version → a.body = b.body

theorem Precedes.refl (d : Draft) : Precedes d d := ⟨le_rfl, fun _ => rfl⟩

/-- The store has taken the version, or a later one. -/
def StoredFrom (db : Db) (id : DraftId) (version : Nat) : Prop :=
  ∃ row, db.drafts.find id = some row ∧ version ≤ row.data.version

theorem editDraft_ok {d d' : Draft} {body : String} (h : Session.editDraft d body = .ok (true, d')) :
    d' = { d with body, version := d.version + 1 } := by
  unfold Session.editDraft at h
  split at h
  · cases h
  · split at h
    · cases h
    · cases h
      rfl

theorem acknowledgeSave_fields (d : Draft) (v : Nat) :
    (Session.acknowledgeSave d v).id = d.id ∧ (Session.acknowledgeSave d v).version = d.version ∧
      (Session.acknowledgeSave d v).body = d.body := by
  unfold Session.acknowledgeSave
  split <;> exact ⟨rfl, rfl, rfl⟩

/-! ## The invariant -/

/-- **What holds between the session, the saves under way and the store.** -/
structure FlowInv (w : Flow) : Prop where
  rows : DraftsInStep w.db
  ids : ∀ id d, w.drafts.find id = some d → d.id = id
  bounded : ∀ id d, w.drafts.find id = some d → d.savedVersion ≤ d.version
  copies : ∀ s ∈ w.saves, ∀ d, w.drafts.find s.draft.id = some d → Precedes s.draft d
  stored : ∀ id d row, w.drafts.find id = some d → w.db.drafts.find id = some row →
    Precedes row.data d
  acked : ∀ a ∈ w.acks, StoredFrom w.db a.1 a.2
  saved : ∀ id d, w.drafts.find id = some d → 0 < d.savedVersion →
    StoredFrom w.db id d.savedVersion

theorem FlowInv.opened (h : w.Opened) : FlowInv w where
  rows := by
    intro id row hrow
    obtain ⟨hid, hversion, hpub, hsnap, -⟩ := h.columns id row hrow
    exact ⟨hid, hsnap, hversion, hpub⟩
  ids := by
    intro id d hd
    obtain ⟨row, hrow, rfl⟩ := h.loaded id d hd
    exact (h.columns id row hrow).1
  bounded := by
    intro id d hd
    obtain ⟨row, hrow, rfl⟩ := h.loaded id d hd
    exact (h.columns id row hrow).2.2.2.2.le
  copies := by
    intro s hs
    rw [h.saves] at hs
    cases hs
  stored := by
    intro id d row hd hrow
    obtain ⟨row₀, hrow₀, rfl⟩ := h.loaded id d hd
    rw [hrow] at hrow₀
    cases hrow₀
    exact .refl _
  acked := by
    intro a ha
    rw [h.acks] at ha
    cases ha
  saved := by
    intro id d hd _
    obtain ⟨row, hrow, rfl⟩ := h.loaded id d hd
    exact ⟨row, hrow, (h.columns id row hrow).2.2.2.2.le⟩

/-! ## Edits -/

/-- A copy of a draft of the session is sent. -/
theorem FlowInv.saveDraft (h : FlowInv w) {d : Draft} (hd : w.drafts.find d.id = some d) :
    FlowInv (w.saveDraft d) where
  rows := h.rows
  ids := h.ids
  bounded := h.bounded
  copies := by
    intro s hs d' hd'
    rcases List.mem_append.mp hs with hs | hs
    · exact h.copies s hs d' hd'
    · cases List.mem_singleton.mp hs
      have heq : some d' = some d := hd'.symm.trans hd
      cases heq
      exact .refl d
  stored := h.stored
  acked := h.acked
  saved := h.saved

/-- The session goes on to the next version of a draft. -/
theorem FlowInv.put_next (h : FlowInv w) {d : Draft} (hd : w.drafts.find id = some d)
    (body : String) : FlowInv { w with
      drafts := w.drafts.put id { d with body, version := d.version + 1 } } := by
  have hfind : ∀ id' d', (w.drafts.put id { d with body, version := d.version + 1 }).find id' =
      some d' → (id' = id ∧ d' = { d with body, version := d.version + 1 }) ∨
        w.drafts.find id' = some d' := by
    intro id' d' h'
    rw [Table.find_put] at h'
    split at h'
    · cases h'
      exact .inl ⟨‹_›, rfl⟩
    · exact .inr h'
  have hnext : ∀ a : Draft, Precedes a d → Precedes a { d with body, version := d.version + 1 } := by
    intro a ha
    have hlt : a.version < d.version + 1 := Nat.lt_succ_of_le ha.version
    exact ⟨hlt.le, fun heq => absurd heq hlt.ne⟩
  constructor
  · exact h.rows
  · intro id' d' h'
    rcases hfind id' d' h' with ⟨rfl, rfl⟩ | h'
    · exact h.ids id' d hd
    · exact h.ids id' d' h'
  · intro id' d' h'
    rcases hfind id' d' h' with ⟨rfl, rfl⟩ | h'
    · exact (h.bounded id' d hd).trans (Nat.le_succ _)
    · exact h.bounded id' d' h'
  · intro s hs d' h'
    rcases hfind _ d' h' with ⟨hid, rfl⟩ | h'
    · exact hnext _ (h.copies s hs d (hid ▸ hd))
    · exact h.copies s hs d' h'
  · intro id' d' row h' hrow
    rcases hfind id' d' h' with ⟨rfl, rfl⟩ | h'
    · exact hnext _ (h.stored id' d row hd hrow)
    · exact h.stored id' d' row h' hrow
  · exact h.acked
  · intro id' d' h' hpos
    rcases hfind id' d' h' with ⟨rfl, rfl⟩ | h'
    · exact h.saved id' d hd hpos
    · exact h.saved id' d' h' hpos

theorem FlowInv.editDraft (h : FlowInv w) (id : DraftId) (body : String) :
    FlowInv (w.editDraft id body) := by
  unfold Flow.editDraft
  split
  · exact h
  · rename_i d hd
    split
    · rename_i d' he
      cases editDraft_ok he
      refine (h.put_next hd body).saveDraft ?_
      have hid : d.id = id := h.ids id d hd
      dsimp only
      rw [hid]
      exact Table.find_put_self ..
    · exact h

/-- A draft is started for a selection. -/
theorem FlowInv.put_fresh (h : FlowInv w) (hfresh : w.isFresh id) {d : Draft} (hid : d.id = id)
    (hsaved : d.savedVersion = 0) : FlowInv { w with drafts := w.drafts.put id d } := by
  simp only [Flow.isFresh, Bool.and_eq_true, List.all_eq_true, decide_eq_true_eq,
    Option.isNone_iff_eq_none] at hfresh
  obtain ⟨⟨⟨⟨⟨⟨-, hrow⟩, hsaves⟩, -⟩, -⟩, -⟩, -⟩ := hfresh
  have hfind : ∀ id' d', (w.drafts.put id d).find id' = some d' →
      (id' = id ∧ d' = d) ∨ w.drafts.find id' = some d' := by
    intro id' d' h'
    rw [Table.find_put] at h'
    split at h'
    · cases h'
      exact .inl ⟨‹_›, rfl⟩
    · exact .inr h'
  constructor
  · exact h.rows
  · intro id' d' h'
    rcases hfind id' d' h' with ⟨rfl, rfl⟩ | h'
    · exact hid
    · exact h.ids id' d' h'
  · intro id' d' h'
    rcases hfind id' d' h' with ⟨rfl, rfl⟩ | h'
    · rw [hsaved]
      exact Nat.zero_le _
    · exact h.bounded id' d' h'
  · intro s hs d' h'
    rcases hfind _ d' h' with ⟨hid', rfl⟩ | h'
    · exact absurd hid' (hsaves s hs)
    · exact h.copies s hs d' h'
  · intro id' d' row h' hrow'
    rcases hfind id' d' h' with ⟨rfl, rfl⟩ | h'
    · dsimp only at hrow'
      rw [hrow] at hrow'
      cases hrow'
    · exact h.stored id' d' row h' hrow'
  · exact h.acked
  · intro id' d' h' hpos
    rcases hfind id' d' h' with ⟨rfl, rfl⟩ | h'
    · omega
    · exact h.saved id' d' h' hpos

/-! ## Answers -/

/-- A draft of the session changes in nothing but its flags; what it counts as saved is stored. -/
theorem FlowInv.modify (h : FlowInv w) (id : DraftId) {f : Draft → Draft}
    (hf : ∀ d, w.drafts.find id = some d → (f d).id = d.id ∧ (f d).version = d.version ∧
      (f d).body = d.body ∧ (f d).savedVersion ≤ d.version ∧
      (0 < (f d).savedVersion → StoredFrom w.db id (f d).savedVersion)) :
    FlowInv { w with drafts := w.drafts.modify id f } := by
  have hfind : ∀ id' d', (w.drafts.modify id f).find id' = some d' →
      (∃ d, id' = id ∧ w.drafts.find id = some d ∧ d' = f d) ∨ w.drafts.find id' = some d' := by
    intro id' d' h'
    rw [Table.find_modify] at h'
    split at h'
    · rename_i hid
      subst hid
      obtain ⟨d, hd, rfl⟩ := Option.map_eq_some_iff.mp h'
      exact .inl ⟨d, rfl, hd, rfl⟩
    · exact .inr h'
  have hprec : ∀ a d, w.drafts.find id = some d → Precedes a d → Precedes a (f d) := by
    intro a d hd ha
    obtain ⟨-, hversion, hbody, -, -⟩ := hf d hd
    exact ⟨hversion ▸ ha.version, fun heq => (ha.body (heq.trans hversion)).trans hbody.symm⟩
  constructor
  · exact h.rows
  · intro id' d' h'
    rcases hfind id' d' h' with ⟨d, rfl, hd, rfl⟩ | h'
    · exact (hf d hd).1.trans (h.ids id' d hd)
    · exact h.ids id' d' h'
  · intro id' d' h'
    rcases hfind id' d' h' with ⟨d, rfl, hd, rfl⟩ | h'
    · rw [(hf d hd).2.1]
      exact (hf d hd).2.2.2.1
    · exact h.bounded id' d' h'
  · intro s hs d' h'
    rcases hfind _ d' h' with ⟨d, hid, hd, rfl⟩ | h'
    · exact hprec _ d hd (h.copies s hs d (hid ▸ hd))
    · exact h.copies s hs d' h'
  · intro id' d' row h' hrow
    rcases hfind id' d' h' with ⟨d, rfl, hd, rfl⟩ | h'
    · exact hprec _ d hd (h.stored id' d row hd hrow)
    · exact h.stored id' d' row h' hrow
  · exact h.acked
  · intro id' d' h' hpos
    rcases hfind id' d' h' with ⟨d, rfl, hd, rfl⟩ | h'
    · exact (hf d hd).2.2.2.2 hpos
    · exact h.saved id' d' h' hpos

theorem FlowInv.acknowledge (h : FlowInv w) {v : Nat} (hack : StoredFrom w.db id v) :
    FlowInv { w with drafts := w.drafts.modify id fun d => Session.acknowledgeSave d v } := by
  refine h.modify id ?_
  intro d hd
  obtain ⟨hid, hversion, hbody⟩ := acknowledgeSave_fields d v
  refine ⟨hid, hversion, hbody, ?_⟩
  unfold Session.acknowledgeSave
  split
  · rename_i hle
    dsimp only
    refine ⟨max_le (h.bounded id d hd) hle, ?_⟩
    intro hpos
    rcases le_total d.savedVersion v with hle' | hle'
    · rwa [max_eq_right hle']
    · rw [max_eq_left hle'] at hpos ⊢
      exact h.saved id d hd hpos
  · exact ⟨h.bounded id d hd, h.saved id d hd⟩

theorem FlowInv.markConfirmed (h : FlowInv w) (e : OutboxEntry) : FlowInv (w.markConfirmed e) := by
  unfold Flow.markConfirmed
  split
  · rename_i hconfirmed
    clear hconfirmed
    generalize e.prepared.comments = cs
    induction cs generalizing w with
    | nil => exact h
    | cons c cs ih =>
      have hnext : FlowInv { w with drafts := w.drafts.modify c.draft fun d =>
          if d.version = c.version then { d with published := true } else d } := by
        refine h.modify c.draft ?_
        intro d hd
        have hkept := And.intro (h.bounded c.draft d hd) (h.saved c.draft d hd)
        split
        · exact ⟨rfl, rfl, rfl, hkept⟩
        · exact ⟨rfl, rfl, rfl, hkept⟩
      exact ih hnext
  · exact h

/-- Of what is under way, some is left. -/
theorem FlowInv.shrink (h : FlowInv w) {saves : List PendingSave} {acks : List (DraftId × Nat)}
    (hs : saves ⊆ w.saves) (ha : acks ⊆ w.acks) : FlowInv { w with saves, acks } where
  rows := h.rows
  ids := h.ids
  bounded := h.bounded
  copies s hmem := h.copies s (hs hmem)
  stored := h.stored
  acked a hmem := h.acked a (ha hmem)
  saved := h.saved

/-! ## The store -/

/-- The store takes a write that keeps every row and only stores what the session has had. -/
theorem FlowInv.store (h : FlowInv w) {db : Db} (hin : DraftsInStep db)
    (hkept : ∀ id row, w.db.drafts.find id = some row → StoredFrom db id row.data.version)
    (hfrom : ∀ id d row, w.drafts.find id = some d → db.drafts.find id = some row →
      Precedes row.data d) : FlowInv { w with db } := by
  have hstill : ∀ id v, StoredFrom w.db id v → StoredFrom db id v := by
    rintro id v ⟨row, hrow, hle⟩
    obtain ⟨row', hrow', hle'⟩ := hkept id row hrow
    exact ⟨row', hrow', hle.trans hle'⟩
  exact ⟨hin, h.ids, h.bounded, h.copies, hfrom, fun a ha => hstill _ _ (h.acked a ha),
    fun id d hd hpos => hstill _ _ (h.saved id d hd hpos)⟩

/-- A save that runs. -/
theorem FlowInv.save (h : FlowInv w) {s : PendingSave} (hs : s ∈ w.saves) {db : Db}
    (hok : SaveAccepted hashes w.db s.draft db) : FlowInv { w with db } := by
  have hin := h.rows.step (.saved hok)
  have hfind : ∀ id, db.drafts.find id = if id = s.draft.id
      then some (Store.savedRow (w.db.drafts.find s.draft.id) s.draft) else w.db.drafts.find id := by
    intro id
    rw [hok.result]
    exact Table.find_put ..
  refine h.store hin ?_ ?_
  · intro id row hrow
    unfold StoredFrom
    rw [hfind id]
    split
    · rename_i hid
      subst hid
      refine ⟨_, rfl, ?_⟩
      rw [savedRow_data]
      exact (hok.earlier row hrow).version
    · exact ⟨row, hrow, le_rfl⟩
  · intro id d row hd hrow
    rw [hfind id] at hrow
    split at hrow
    · rename_i hid
      subst hid
      cases hrow
      rw [savedRow_data]
      obtain ⟨hversion, hbody⟩ := h.copies s hs d hd
      exact ⟨hversion, hbody⟩
    · exact h.stored id d row hd hrow

theorem outbox_draft {op : StoreOp} (hop : op.isOutbox) {db : Db} (hk : Keyed db.drafts)
    (id : DraftId) : (Store.after hashes db op).drafts.find id = db.drafts.find id ∨
      ∃ row cs, db.drafts.find id = some row ∧
        (Store.after hashes db op).drafts.find id = some (publishedBy cs id row) := by
  have hw : Wrote hashes db op (Store.after hashes db op) := wrote_of_step rfl
  have hstep := hw.draft hk id
  generalize hbefore : db.drafts.find id = before at hstep ⊢
  generalize (Store.after hashes db op).drafts.find id = after at hstep ⊢
  cases hstep with
  | same => exact .inl rfl
  | saved hop' =>
    subst hop'
    cases hop
  | discarded hop' =>
    subst hop'
    cases hop
  | published hm hst => exact .inr ⟨_, _, rfl, rfl⟩
  | pruned hop' =>
    subst hop'
    cases hop

theorem FlowInv.outbox (h : FlowInv w) {op : StoreOp} (hop : op.isOutbox) :
    FlowInv { w with db := Store.after hashes w.db op } := by
  have hin : DraftsInStep (Store.after hashes w.db op) := h.rows.step (wrote_of_step rfl)
  refine h.store hin ?_ ?_
  · intro id row hrow
    rcases outbox_draft hop h.rows.keyed id with hsame | ⟨row', cs, hrow', hpub⟩
    · exact ⟨row, hsame.trans hrow, le_rfl⟩
    · rw [hrow] at hrow'
      cases hrow'
      exact ⟨_, hpub, (publishedBy_place cs id row).2.2.1.le⟩
  · intro id d row hd hrow
    rcases outbox_draft hop h.rows.keyed id with hsame | ⟨row', cs, hrow', hpub⟩
    · exact h.stored id d row hd (hsame.symm.trans hrow)
    · rw [hpub] at hrow
      cases hrow
      obtain ⟨-, -, hversion, hbody⟩ := publishedBy_place cs id row'
      obtain ⟨hle, heq⟩ := h.stored id d row' hd hrow'
      exact ⟨hversion ▸ hle, fun hv => hbody.symm.trans (heq (hversion.trans hv))⟩

/-! ## Steps and runs -/

/-- The event is not part of a discard. -/
def NoDiscard : FlowEvent → Prop
  | .discard _ | .runDiscard _ _ | .discardDone _ => False
  | _ => True

theorem FlowInv.step (h : FlowInv w) (hev : NoDiscard ev) (hs : w.step hashes ev = some w') :
    FlowInv w' := by
  cases ev with
  | compose id file side startLine line body =>
    simp only [Flow.step] at hs
    split at hs
    · rename_i hc
      cases hs
      exact (h.put_fresh hc.2.1 rfl rfl).editDraft id body
    · cases hs
  | edit id body =>
    cases hs
    exact h.editDraft id body
  | retrySave id =>
    simp only [Flow.step] at hs
    split at hs
    · rename_i d hd
      split at hs
      · cases hs
      · cases hs
        have hid := h.ids id d hd
        exact h.saveDraft (hid ▸ hd)
    · cases hs
  | runSave k ok =>
    simp only [Flow.step] at hs
    split at hs
    · cases hs
    rename_i s hk
    have hrest : w.saves.eraseIdx k ⊆ w.saves := (List.eraseIdx_sublist w.saves k).subset
    split at hs
    · rename_i db hok
      cases hs
      have hsaved := h.save (List.mem_of_getElem? hk) (saveDraft_ok hok)
      have hack : FlowInv { w with db, acks := w.acks ++ [(s.draft.id, s.draft.version)] } := by
        refine ⟨hsaved.rows, hsaved.ids, hsaved.bounded, hsaved.copies, hsaved.stored, ?_,
          hsaved.saved⟩
        intro a ha
        rcases List.mem_append.mp ha with ha | ha
        · exact hsaved.acked a ha
        · cases List.mem_singleton.mp ha
          have hacc := saveDraft_ok hok
          refine ⟨Store.savedRow (w.db.drafts.find s.draft.id) s.draft, ?_, ?_⟩
          · dsimp only
            rw [hacc.result]
            exact Table.find_put_self ..
          · rw [savedRow_data]
      obtain ⟨hrows, hids, hbounded, hcopies, hstored, hacked, hkept⟩ :=
        hack.shrink hrest (List.Subset.refl _)
      exact ⟨hrows, hids, hbounded, hcopies, hstored, hacked, hkept⟩
    · cases hs
      exact h.shrink hrest (List.Subset.refl _)
  | dropSave k =>
    simp only [Flow.step] at hs
    split at hs
    · cases hs
      exact h.shrink (List.eraseIdx_sublist w.saves k).subset (List.Subset.refl _)
    · cases hs
  | acknowledge k =>
    simp only [Flow.step] at hs
    split at hs
    · cases hs
    rename_i id v hk
    cases hs
    have hack := h.acknowledge (h.acked (id, v) (List.mem_of_getElem? hk))
    exact hack.shrink (List.Subset.refl _) (List.eraseIdx_sublist w.acks k).subset
  | dropAck k =>
    simp only [Flow.step] at hs
    split at hs
    · cases hs
      exact h.shrink (List.Subset.refl _) (List.eraseIdx_sublist w.acks k).subset
    · cases hs
  | discard id => exact hev.elim
  | runDiscard k ok => exact hev.elim
  | dropDiscard k =>
    simp only [Flow.step] at hs
    split at hs
    · cases hs
      exact ⟨h.rows, h.ids, h.bounded, h.copies, h.stored, h.acked, h.saved⟩
    · cases hs
  | discardDone k => exact hev.elim
  | outbox op =>
    simp only [Flow.step] at hs
    split at hs
    · rename_i hop
      cases hs
      exact h.outbox hop
    · cases hs
  | markConfirmed e =>
    cases hs
    exact h.markConfirmed e

/-- **What a step does to the store.** -/
inductive DbStep (hashes : Hashes) (w : Flow) (db' : Db) : Prop
  | same (heq : db' = w.db)
  | saved {s : PendingSave} (hs : s ∈ w.saves) (hok : SaveAccepted hashes w.db s.draft db')
  | discarded {x : DraftId} {v : Nat} (hok : Store.discardDraft w.db x v = .ok db')
  | outbox {op : StoreOp} (hop : op.isOutbox) (heq : db' = Store.after hashes w.db op)

theorem editDraft_db (w : Flow) (id : DraftId) (body : String) : (w.editDraft id body).db = w.db := by
  unfold Flow.editDraft
  split
  · rfl
  · split <;> rfl

theorem dbStep_of_step (hs : w.step hashes ev = some w') : DbStep hashes w w'.db := by
  cases ev with
  | compose id file side startLine line body =>
    simp only [Flow.step] at hs
    split at hs
    · cases hs
      exact .same (editDraft_db ..)
    · cases hs
  | edit id body =>
    cases hs
    exact .same (editDraft_db ..)
  | runSave k ok =>
    simp only [Flow.step] at hs
    split at hs
    · cases hs
    rename_i s hk
    split at hs
    · rename_i db hok
      cases hs
      exact .saved (List.mem_of_getElem? hk) (saveDraft_ok hok)
    · cases hs
      exact .same rfl
  | runDiscard k ok =>
    simp only [Flow.step] at hs
    split at hs
    · cases hs
    split at hs
    · rename_i hok
      cases hs
      exact .discarded hok
    · cases hs
      exact .same rfl
  | outbox op =>
    simp only [Flow.step] at hs
    split at hs
    · rename_i hop
      cases hs
      exact .outbox hop rfl
    · cases hs
  | markConfirmed e =>
    cases hs
    refine .same ?_
    unfold Flow.markConfirmed
    split <;> rfl
  | _ =>
    simp only [Flow.step] at hs
    repeat' split at hs
    all_goals
      cases hs
      try exact .same rfl

/-- A published row keeps its version and text. -/
structure StaysPublished (row row' : DraftRow) : Prop where
  published : row'.data.published = true
  version : row'.data.version = row.data.version
  body : row'.data.body = row.data.body

theorem published_step (h : DraftsInStep w.db) (hs : w.step hashes ev = some w') {row : DraftRow}
    (hrow : w.db.drafts.find id = some row) (hpub : row.data.published = true) :
    ∃ row', w'.db.drafts.find id = some row' ∧ StaysPublished row row' := by
  cases dbStep_of_step hs with
  | same heq => exact ⟨row, heq ▸ hrow, hpub, rfl, rfl⟩
  | saved hmem hok =>
    rename_i s
    have hne : id ≠ s.draft.id := by
      rintro rfl
      have hfalse := (hok.earlier row hrow).unpublished
      rw [hpub] at hfalse
      cases hfalse
    refine ⟨row, ?_, hpub, rfl, rfl⟩
    rw [hok.result]
    exact (Table.find_put_ne _ hne).trans hrow
  | discarded hok =>
    rename_i x v
    obtain ⟨row₀, hrow₀, -, hfalse, hdb⟩ := discardDraft_ok hok
    have hne : id ≠ x := by
      rintro rfl
      rw [hrow] at hrow₀
      cases hrow₀
      rw [(h id row hrow).published, hpub] at hfalse
      cases hfalse
    refine ⟨row, ?_, hpub, rfl, rfl⟩
    rw [hdb]
    exact (AList.lookup_erase_ne hne).trans hrow
  | outbox hop heq =>
    rw [heq]
    rcases outbox_draft hop h.keyed id with hsame | ⟨row₀, cs, hrow₀, hafter⟩
    · exact ⟨row, hsame.trans hrow, hpub, rfl, rfl⟩
    · rw [hrow] at hrow₀
      cases hrow₀
      obtain ⟨-, -, hversion, hbody⟩ := publishedBy_place cs id row
      refine ⟨_, hafter, ?_, hversion.symm, hbody.symm⟩
      unfold publishedBy
      split
      · rfl
      · exact hpub

/-- **The protocol between session and store.** With no discards, whatever the order in which copies
are saved, lost and acknowledged: a session never counts more as saved than it has, a draft it counts
as saved is in the store with its version and text, and a published draft is never rewritten. -/
theorem run_saves_what_is_acknowledged {w₀ : Flow} {es₁ es₂ : List FlowEvent} (h₀ : w₀.Opened)
    (h₁ : (Flow.system hashes).Steps (fun _ ev => NoDiscard ev) w₀ es₁ w₁)
    (h₂ : (Flow.system hashes).Steps (fun _ ev => NoDiscard ev) w₁ es₂ w₂) :
    (∀ id d, w₁.drafts.find id = some d → d.savedVersion ≤ d.version ∧
      (d.isSaved → 0 < d.version → ∃ row, w₁.db.drafts.find id = some row ∧
        row.version = d.version ∧ row.data.version = d.version ∧ row.data.body = d.body)) ∧
    ∀ id row, w₁.db.drafts.find id = some row → row.data.published = true →
      ∃ row', w₂.db.drafts.find id = some row' ∧ StaysPublished row row' := by
  have hinv : FlowInv w₁ :=
    h₁.invariant (fun _ _ _ hev hs h => h.step hev hs) (.opened h₀)
  constructor
  · intro id d hd
    refine ⟨hinv.bounded id d hd, ?_⟩
    intro hsaved hpos
    have heq : d.version = d.savedVersion := of_decide_eq_true hsaved
    obtain ⟨row, hrow, hle⟩ := hinv.saved id d hd (heq ▸ hpos)
    obtain ⟨hle', hbody⟩ := hinv.stored id d row hd hrow
    have hversion : row.data.version = d.version := by omega
    exact ⟨row, hrow, (hinv.rows id row hrow).version.trans hversion, hversion, hbody hversion⟩
  · intro id row hrow hpub
    have hkept : FlowInv w₂ ∧ ∃ row', w₂.db.drafts.find id = some row' ∧ StaysPublished row row' := by
      refine h₂.invariant (P := fun w => FlowInv w ∧ ∃ row', w.db.drafts.find id = some row' ∧
        StaysPublished row row') ?_ ⟨hinv, row, hrow, hpub, rfl, rfl⟩
      rintro w ev w' hev hs ⟨h, row₁, hrow₁, hstays⟩
      obtain ⟨row₂, hrow₂, hpub₂, hversion, hbody⟩ :=
        published_step h.rows hs hrow₁ hstays.published
      exact ⟨h.step hev hs, row₂, hrow₂, hpub₂, hversion.trans hstays.version,
        hbody.trans hstays.body⟩
    exact hkept.2

/-! ### Two versions, saved out of order -/

/-- The sample snapshot, opened for the first time. -/
def sampleFlow : Flow where
  snapshot := sampleSnapshot
  drafts := ∅
  db := sampleStore
  saves := []
  acks := []
  discards := []
  gone := []
  issued := 0
  taken := []
  discarded := []

theorem sampleFlow_opened : sampleFlow.Opened where
  loaded id d h := by cases h
  columns id row h := by cases h
  saves := rfl
  acks := rfl
  discards := rfl
  gone := rfl
  taken := rfl
  discarded := rfl

/-- The first version of a draft on the changed line, and the second. -/
def firstCopy : Draft :=
  { Flow.emptyDraft sampleSnapshot.id ⟨"d1"⟩ sampleFile.id .right 1 1 with body := "a", version := 1 }

def secondCopy : Draft := { firstCopy with body := "ab", version := 2 }

/-- Both versions are on their way to the store. -/
def typedFlow : Flow :=
  { sampleFlow with
    drafts := Table.put ∅ ⟨"d1"⟩ secondCopy
    saves := [⟨0, firstCopy⟩, ⟨1, secondCopy⟩]
    issued := 2 }

theorem step_runSave_sample {k : Nat} {s : PendingSave} (hk : w.saves[k]? = some s)
    (hdb : HasSample w.db) (h : savesSample (w.db.drafts.find s.draft.id) s.draft) :
    (Flow.system sampleHashes).step w (.runSave k true) = some { w with
      saves := w.saves.eraseIdx k
      db := withSaved w.db s.draft
      acks := w.acks ++ [(s.draft.id, s.draft.version)]
      taken := s :: w.taken } := by
  simp only [Flow.system, Flow.step, hk, saveDraft_sample hdb h]

/-- The second version is stored while the first is still under way. -/
def storedFlow : Flow :=
  { typedFlow with
    db := withSaved sampleStore secondCopy
    saves := [⟨0, firstCopy⟩]
    acks := [(⟨"d1"⟩, 2)]
    taken := [⟨1, secondCopy⟩] }

/-- The session has heard of it. -/
def savedFlow : Flow :=
  { storedFlow with
    drafts := Table.put ∅ ⟨"d1"⟩ { secondCopy with savedVersion := 2 }
    acks := [] }

theorem typedFlow_stored :
    (Flow.system sampleHashes).step typedFlow (.runSave 1 true) = some storedFlow :=
  step_runSave_sample (w := typedFlow) (k := 1) (s := ⟨1, secondCopy⟩) rfl ⟨_, rfl, rfl⟩ (by decide)

/-- What is done up to here, under whatever is asked of the steps. -/
theorem sampleFlow_saved (ok : Flow → FlowEvent → Prop)
    (hok : ∀ w, ok w (.compose ⟨"d1"⟩ sampleFile.id .right 1 1 "a") ∧ ok w (.edit ⟨"d1"⟩ "ab") ∧
      ok w (.runSave 1 true) ∧ ok w (.acknowledge 0)) :
    (Flow.system sampleHashes).Steps ok sampleFlow
      [.compose ⟨"d1"⟩ sampleFile.id .right 1 1 "a", .edit ⟨"d1"⟩ "ab", .runSave 1 true,
        .acknowledge 0] savedFlow := by
  have htyped : ∀ {es w}, (Flow.system sampleHashes).Steps ok typedFlow es w →
      (Flow.system sampleHashes).Steps ok sampleFlow
        (.compose ⟨"d1"⟩ sampleFile.id .right 1 1 "a" :: .edit ⟨"d1"⟩ "ab" :: es) w := by
    intro es w h
    exact .cons (hok _).1 rfl (.cons (hok _).2.1 rfl h)
  have hacked : (Flow.system sampleHashes).step storedFlow (.acknowledge 0) = some savedFlow := rfl
  exact htyped (.cons (hok _).2.2.1 typedFlow_stored (.cons (hok _).2.2.2 hacked .nil))

theorem savedFlow_saved_what_is_acknowledged : ∃ d row,
    savedFlow.drafts.find ⟨"d1"⟩ = some d ∧ d.isSaved ∧ savedFlow.saves.length = 1 ∧
    savedFlow.db.drafts.find ⟨"d1"⟩ = some row ∧ row.version = d.version ∧
    row.data.version = d.version ∧ row.data.body = d.body := by
  have hrun := sampleFlow_saved (fun _ ev => NoDiscard ev) fun _ => ⟨trivial, trivial,
    trivial, trivial⟩
  obtain ⟨hdrafts, -⟩ := run_saves_what_is_acknowledged sampleFlow_opened hrun .nil
  obtain ⟨-, hsaved⟩ := hdrafts ⟨"d1"⟩ { secondCopy with savedVersion := 2 } rfl
  obtain ⟨row, hrow, hstored⟩ := hsaved rfl (by decide)
  exact ⟨_, row, rfl, rfl, rfl, hrow, hstored⟩

end Proof
end Diffz
