import Diffz.Proof.ReviewFlow.Saved

/-!
# A discarded draft and the saves that were under way

The application discards a draft only when its last version is acknowledged. A save of an earlier
version may still be under way then, and `save_draft` orders versions by the row it finds: where the
discard has taken the row away it finds none, and the old text is stored again
(`late_save_revives_discarded`). Nothing else brings a discarded draft back.
-/

set_option autoImplicit false

namespace Diffz
namespace Proof

variable {hashes : Hashes} {w w' : Flow} {ev : FlowEvent}

/-- The draft passes the checks `save_draft` makes of its version and size. -/
def Savable (d : Draft) : Prop :=
  0 < d.version ∧ d.version ≤ Store.i64Max ∧ (asBytes d.body).length ≤ 1024 * 1024

/-- When a discard finds its row, no save of that draft is under way, but for those the store refuses
for their version or size. -/
def ClearOfSaves (w : Flow) (ev : FlowEvent) : Prop :=
  ∀ k ok id v row, ev = .runDiscard k ok → w.discards[k]? = some (id, v) →
    w.db.drafts.find id = some row → row.version = v → row.published = false →
    ∀ s ∈ w.saves, s.draft.id = id → ¬ Savable s.draft

/-- What a discarded draft can still come to. -/
structure DiscardInv (w : Flow) : Prop where
  rows : DraftsInStep w.db
  recorded : ∀ x ∈ w.discarded, x.2 ≤ w.issued
  later : ∀ x ∈ w.discarded, ∀ s ∈ w.saves, s.draft.id = x.1 → Savable s.draft → x.2 ≤ s.issued
  revived : ∀ x ∈ w.discarded, ∀ row, w.db.drafts.find x.1 = some row →
    ∃ s ∈ w.taken, s.draft.id = x.1 ∧ x.2 ≤ s.issued

theorem DiscardInv.opened (h : w.Opened) : DiscardInv w := by
  have hnone : ∀ x, x ∉ w.discarded := by
    intro x hx
    rw [h.discarded] at hx
    cases hx
  exact ⟨(FlowInv.opened h).rows, fun x hx => absurd hx (hnone x), fun x hx => absurd hx (hnone x),
    fun x hx => absurd hx (hnone x)⟩

theorem DiscardInv.saveDraft (h : DiscardInv w) (d : Draft) : DiscardInv (w.saveDraft d) where
  rows := h.rows
  recorded x hx := (h.recorded x hx).trans (Nat.le_succ _)
  later := by
    intro x hx s hs hid hsav
    rcases List.mem_append.mp hs with hs | hs
    · exact h.later x hx s hs hid hsav
    · cases List.mem_singleton.mp hs
      exact h.recorded x hx
  revived := h.revived

/-- The parts of the state a discard does not look at. -/
theorem DiscardInv.session (h : DiscardInv w) {drafts : Table DraftId Draft}
    {acks discards : List (DraftId × Nat)} {gone : List DraftId} :
    DiscardInv { w with drafts, acks, discards, gone } :=
  ⟨h.rows, h.recorded, h.later, h.revived⟩

theorem DiscardInv.shrink (h : DiscardInv w) {saves : List PendingSave} (hs : saves ⊆ w.saves) :
    DiscardInv { w with saves } :=
  ⟨h.rows, h.recorded, fun x hx s hmem => h.later x hx s (hs hmem), h.revived⟩

theorem DiscardInv.editDraft (h : DiscardInv w) (id : DraftId) (body : String) :
    DiscardInv (w.editDraft id body) := by
  unfold Flow.editDraft
  split
  · exact h
  · split
    · exact h.session.saveDraft _
    · exact h

theorem DiscardInv.save (h : DiscardInv w) {s : PendingSave} (hs : s ∈ w.saves) {db : Db}
    (hok : SaveAccepted hashes w.db s.draft db) : DiscardInv { w with db, taken := s :: w.taken } where
  rows := h.rows.step (.saved hok)
  recorded := h.recorded
  later := h.later
  revived := by
    intro x hx row hrow
    by_cases hid : s.draft.id = x.1
    · exact ⟨s, List.mem_cons_self, hid, h.later x hx s hs hid ⟨hok.version, hok.sized⟩⟩
    · dsimp only at hrow
      rw [hok.result] at hrow
      have hold : w.db.drafts.find x.1 = some row :=
        (Table.find_put_ne _ (Ne.symm hid)).symm.trans hrow
      obtain ⟨s', hs', hrest⟩ := h.revived x hx row hold
      exact ⟨s', List.mem_cons_of_mem s hs', hrest⟩

theorem DraftsInStep.erase {db : Db} (h : DraftsInStep db) (id : DraftId) :
    DraftsInStep { db with drafts := db.drafts.erase id } := by
  intro x row hrow
  have hrow : Table.find (AList.erase id db.drafts) x = some row := hrow
  rw [Table.find_erase] at hrow
  split at hrow
  · cases hrow
  · exact h x row hrow

/-- A discard that is carried out while nothing of its draft is under way. -/
theorem DiscardInv.discard (h : DiscardInv w) {id : DraftId}
    (hclear : ∀ s ∈ w.saves, s.draft.id = id → ¬ Savable s.draft) :
    DiscardInv { w with
      db := { w.db with drafts := w.db.drafts.erase id }
      discarded := (id, w.issued) :: w.discarded } where
  rows := h.rows.erase id
  recorded := by
    intro x hx
    rcases List.mem_cons.mp hx with rfl | hx
    · exact le_rfl
    · exact h.recorded x hx
  later := by
    intro x hx s hs hid hsav
    rcases List.mem_cons.mp hx with rfl | hx
    · exact absurd hsav (hclear s hs hid)
    · exact h.later x hx s hs hid hsav
  revived := by
    intro x hx row' hrow'
    have hrow' : Table.find (AList.erase id w.db.drafts) x.1 = some row' := hrow'
    rw [Table.find_erase] at hrow'
    split at hrow'
    · cases hrow'
    · rename_i hne
      rcases List.mem_cons.mp hx with rfl | hx
      · exact absurd rfl hne
      · exact h.revived x hx row' hrow'

theorem DiscardInv.outbox (h : DiscardInv w) {op : StoreOp} (hop : op.isOutbox) :
    DiscardInv { w with db := Store.after hashes w.db op } where
  rows := h.rows.step (wrote_of_step rfl)
  recorded := h.recorded
  later := h.later
  revived := by
    intro x hx row hrow
    rcases outbox_draft hop h.rows.keyed x.1 with hsame | ⟨row₀, cs, hrow₀, -⟩
    · exact h.revived x hx row (hsame.symm.trans hrow)
    · exact h.revived x hx row₀ hrow₀

theorem DiscardInv.step (h : DiscardInv w) (hev : ClearOfSaves w ev)
    (hs : w.step hashes ev = some w') : DiscardInv w' := by
  cases ev with
  | compose id file side startLine line body =>
    simp only [Flow.step] at hs
    split at hs
    · cases hs
      exact h.session.editDraft id body
    · cases hs
  | edit id body =>
    cases hs
    exact h.editDraft id body
  | retrySave id =>
    simp only [Flow.step] at hs
    split at hs
    · split at hs
      · cases hs
      · cases hs
        exact h.saveDraft _
    · cases hs
  | runSave k ok =>
    simp only [Flow.step] at hs
    split at hs
    · cases hs
    rename_i s hk
    have hrest : w.saves.eraseIdx k ⊆ w.saves := (List.eraseIdx_sublist w.saves k).subset
    split at hs
    · rename_i db hok
      cases hs
      exact ((h.save (List.mem_of_getElem? hk) (saveDraft_ok hok)).shrink hrest).session
    · cases hs
      exact h.shrink hrest
  | dropSave k =>
    simp only [Flow.step] at hs
    split at hs
    · cases hs
      exact h.shrink (List.eraseIdx_sublist w.saves k).subset
    · cases hs
  | runDiscard k ok =>
    simp only [Flow.step] at hs
    split at hs
    · cases hs
    rename_i id v hk
    split at hs
    · rename_i db hok
      cases hs
      obtain ⟨row, hrow, hv, hpub, rfl⟩ := discardDraft_ok hok
      have hclear := hev k true id v row rfl hk hrow hv hpub
      exact (h.discard hclear).session
    · cases hs
      exact h.session
  | outbox op =>
    simp only [Flow.step] at hs
    split at hs
    · rename_i hop
      cases hs
      exact h.outbox hop
    · cases hs
  | markConfirmed e =>
    cases hs
    unfold Flow.markConfirmed
    split
    · exact h.session
    · exact h
  | _ =>
    simp only [Flow.step] at hs
    repeat' split at hs
    all_goals
      cases hs
      try exact h.session

/-- **A discarded draft stays discarded**, where no discard comes over a save of its draft that is
still under way: a row of a draft that was discarded is from a save issued after the discard. -/
theorem run_discarded_stays_discarded {w₀ : Flow} {es : List FlowEvent} (h₀ : w₀.Opened)
    (hrun : (Flow.system hashes).Steps ClearOfSaves w₀ es w) {x : DraftId × Nat}
    (hx : x ∈ w.discarded) {row : DraftRow} (hrow : w.db.drafts.find x.1 = some row) :
    ∃ s ∈ w.taken, s.draft.id = x.1 ∧ x.2 ≤ s.issued := by
  have hinv : DiscardInv w := hrun.invariant (fun _ _ _ hev hs h => h.step hev hs) (.opened h₀)
  exact hinv.revived x hx row hrow

/-! ### A discard, with and without a save under way -/

/-- The draft was discarded when its second version was stored; the copies in `saves` are still under
way. -/
def discardedFlow (saves : List PendingSave) : Flow :=
  { savedFlow with
    db := { savedFlow.db with drafts := savedFlow.db.drafts.erase ⟨"d1"⟩ }
    saves
    gone := [⟨"d1"⟩]
    discarded := [(⟨"d1"⟩, 2)] }

theorem discardedFlow_of_saved {ok : Flow → FlowEvent → Prop} {saves : List PendingSave}
    (hdiscard : ok { savedFlow with saves } (.discard ⟨"d1"⟩))
    (hrun : ok { savedFlow with saves, discards := [(⟨"d1"⟩, 2)] } (.runDiscard 0 true))
    {es : List FlowEvent} (h : (Flow.system hashes).Steps ok (discardedFlow saves) es w) :
    (Flow.system hashes).Steps ok { savedFlow with saves }
      (.discard ⟨"d1"⟩ :: .runDiscard 0 true :: es) w :=
  .cons hdiscard rfl (.cons hrun rfl h)

/-- The text the user goes on with after the discard. -/
def thirdCopy : Draft := { secondCopy with body := "abc", version := 3, savedVersion := 2 }

/-- Its copy on the way to the store. -/
def rewrittenFlow : Flow :=
  { discardedFlow [] with
    drafts := Table.put ∅ ⟨"d1"⟩ thirdCopy
    saves := [⟨2, thirdCopy⟩]
    issued := 3 }

theorem rewritten_draft_is_from_later_save : ∃ w row,
    (Flow.system sampleHashes).Steps ClearOfSaves sampleFlow
      ([.compose ⟨"d1"⟩ sampleFile.id .right 1 1 "a", .edit ⟨"d1"⟩ "ab", .runSave 1 true,
        .acknowledge 0] ++ .dropSave 0 :: .discard ⟨"d1"⟩ :: .runDiscard 0 true ::
        [.edit ⟨"d1"⟩ "abc", .runSave 0 true]) w ∧
    (⟨"d1"⟩, 2) ∈ w.discarded ∧ w.db.drafts.find ⟨"d1"⟩ = some row ∧
    ∃ s ∈ w.taken, s.draft.id = ⟨"d1"⟩ ∧ 2 ≤ s.issued := by
  have hne : ∀ (w : Flow) (ev : FlowEvent), (∀ k ok, ev ≠ .runDiscard k ok) → ClearOfSaves w ev := by
    intro w ev h k ok id v row hev
    exact absurd hev (h k ok)
  have hfirst := sampleFlow_saved ClearOfSaves fun w => ⟨hne _ _ (by simp), hne _ _ (by simp),
    hne _ _ (by simp), hne _ _ (by simp)⟩
  have hsave : (Flow.system sampleHashes).step rewrittenFlow (.runSave 0 true) = some { rewrittenFlow with
      saves := []
      db := withSaved rewrittenFlow.db thirdCopy
      acks := [(⟨"d1"⟩, 3)]
      taken := ⟨2, thirdCopy⟩ :: rewrittenFlow.taken } :=
    step_runSave_sample (w := rewrittenFlow) (k := 0) (s := ⟨2, thirdCopy⟩) rfl ⟨_, rfl, rfl⟩
      (by decide)
  have hedit : (Flow.system sampleHashes).step (discardedFlow []) (.edit ⟨"d1"⟩ "abc") =
      some rewrittenFlow := rfl
  have hdrop : (Flow.system sampleHashes).step savedFlow (.dropSave 0) =
      some { savedFlow with saves := [] } := rfl
  have hclear : ClearOfSaves { savedFlow with saves := [], discards := [(⟨"d1"⟩, 2)] }
      (.runDiscard 0 true) := by
    intro k ok id v row hev hk hrow hv hpub s hs
    cases hs
  have hrun := hfirst.append (.cons (hne _ _ (by simp)) hdrop (discardedFlow_of_saved
    (hne _ _ (by simp)) hclear (.cons (hne _ _ (by simp)) hedit
      (.cons (hne _ _ (by simp)) hsave .nil))))
  have hrow : (withSaved rewrittenFlow.db thirdCopy).drafts.find ⟨"d1"⟩ =
      some (Store.savedRow none thirdCopy) := rfl
  refine ⟨_, _, hrun, List.mem_cons_self, hrow, ?_⟩
  exact run_discarded_stays_discarded sampleFlow_opened hrun (x := (⟨"d1"⟩, 2)) List.mem_cons_self
    hrow

/-- **A save that was under way brings a discarded draft back.** -/
theorem late_save_revives_discarded : ∃ w row,
    (Flow.system sampleHashes).Steps (fun _ _ => True) sampleFlow
      ([.compose ⟨"d1"⟩ sampleFile.id .right 1 1 "a", .edit ⟨"d1"⟩ "ab", .runSave 1 true,
        .acknowledge 0] ++ [.discard ⟨"d1"⟩, .runDiscard 0 true, .runSave 0 true]) w ∧
    (⟨"d1"⟩, 2) ∈ w.discarded ∧ w.db.drafts.find ⟨"d1"⟩ = some row ∧
    ∀ s ∈ w.taken, s.issued < 2 := by
  have hfirst := sampleFlow_saved (fun _ _ => True) fun w => ⟨trivial, trivial, trivial, trivial⟩
  have hlate : (Flow.system sampleHashes).step (discardedFlow [⟨0, firstCopy⟩]) (.runSave 0 true) =
      some { discardedFlow [] with
        db := withSaved (discardedFlow []).db firstCopy
        acks := [(⟨"d1"⟩, 1)]
        taken := ⟨0, firstCopy⟩ :: (discardedFlow []).taken } :=
    step_runSave_sample (w := discardedFlow [⟨0, firstCopy⟩]) (k := 0) (s := ⟨0, firstCopy⟩) rfl
      ⟨_, rfl, rfl⟩ (by decide)
  have hrun := hfirst.append (discardedFlow_of_saved trivial trivial (.cons trivial hlate .nil))
  refine ⟨_, Store.savedRow none firstCopy, hrun, List.mem_cons_self, rfl, ?_⟩
  intro s hs
  rcases List.mem_cons.mp hs with rfl | hs
  · decide
  · cases List.mem_singleton.mp hs
    decide

end Proof
end Diffz
