import Diffz.Core.Review
import Diffz.Lib.Fallible

/-!
# What an accepted review has passed

`prepare_ok` and `prepareComment_ok` invert preparation: the checks an accepted review has passed
and the fields it has. The results about providers start from them.
-/

set_option autoImplicit false

namespace Diffz
namespace Proof

open Diffz.PreparedReview

variable {hashes : Hashes} {rules : ReviewRules} {s : Snapshot} {target : RemoteTarget}

/-- What an accepted draft has passed, and the comment made of it. -/
structure Accepted (rules : ReviewRules) (s : Snapshot) (target : RemoteTarget) (d : Draft)
    (c : PreparedComment) (f : FileChange) : Prop where
  snapshot : d.snapshot = s.id
  found : s.file d.file = some f
  eligible : d.fileLevel = false → f.eligible d.side d.startLine d.line
  path : ∃ p, f.path = some p ∧ p.utf8 = .ok c.path
  position : rules.position target f d = .ok c.position
  draft : c.draft = d.id
  version : c.version = d.version
  body : c.body = d.body
  side : c.side = d.side
  startLine : c.startLine = d.startLine
  line : c.line = d.line
  fileLevel : c.fileLevel = d.fileLevel

theorem prepareComment_ok {seen : List DraftId} {d : Draft} {c : PreparedComment}
    (h : prepareComment rules s target seen d = .ok c) : ∃ f, Accepted rules s target d c f := by
  unfold prepareComment at h
  split at h
  · cases h
  split at h
  · cases h
  rename_i htarget
  split at h
  · cases h
  split at h
  · cases h
  split at h
  · cases h
  rename_i f hf
  split at h
  · cases h
  rename_i heligible
  split at h
  · cases h
  rename_i p hp
  obtain ⟨path, hpath, h⟩ := ok_of_bind h
  obtain ⟨position, hposition, h⟩ := ok_of_bind h
  cases h
  simp only [not_or, not_not] at htarget
  refine ⟨f, htarget.1, hf, ?_, ⟨p, hp, hpath⟩, hposition, rfl, rfl, rfl, rfl, rfl, rfl, rfl⟩
  intro hline
  simp only [not_and, not_not] at heligible
  exact heligible (by simp [Draft.isFileLevel, hline])

/-- Comments are made of the drafts one by one. -/
theorem prepareComments_ok {seen : List DraftId} {drafts : List Draft}
    {cs : List PreparedComment} (h : prepareComments rules s target seen drafts = .ok cs) :
    List.Forall₂ (fun d c => ∃ f, Accepted rules s target d c f) drafts cs := by
  induction drafts generalizing seen cs with
  | nil =>
    cases h
    exact .nil
  | cons d drafts ih =>
    rw [prepareComments] at h
    obtain ⟨c, hc, h⟩ := ok_of_bind h
    obtain ⟨rest, hrest, h⟩ := ok_of_bind h
    cases h
    exact .cons (prepareComment_ok hc) (ih hrest)

theorem accepted_of_mem {drafts : List Draft} {cs : List PreparedComment} {c : PreparedComment}
    (h : List.Forall₂ (fun d c => ∃ f, Accepted rules s target d c f) drafts cs) (hc : c ∈ cs) :
    ∃ d f, Accepted rules s target d c f := by
  induction h with
  | nil => cases hc
  | cons hdc _ ih =>
    rcases List.mem_cons.mp hc with rfl | hc
    · exact ⟨_, hdc⟩
    · exact ih hc

/-- What an accepted review has passed, as far as the results here use it. -/
structure PrepareOk (hashes : Hashes) (rules : ReviewRules) (id : OperationId) (s : Snapshot)
    (drafts : List Draft) (verdict : Verdict) (summary : String) (p : PreparedReview) : Prop where
  remote : s.remote = some p.target
  provider : rules.id = p.target.provider
  checked : rules.check verdict summary drafts = .ok ()
  id : p.id = id
  snapshot : p.snapshot = s.id
  verdict : p.verdict = verdict
  summary : p.summary = summary
  comments : List.Forall₂ (fun d c => ∃ f, Accepted rules s p.target d c f) drafts p.comments
  fingerprint : p.fingerprint = { p with fingerprint := "" }.computeFingerprint hashes rules

theorem prepare_ok {id : OperationId} {drafts : List Draft} {verdict : Verdict} {summary : String}
    {p : PreparedReview} (h : prepare hashes rules id s drafts verdict summary = .ok p) :
    PrepareOk hashes rules id s drafts verdict summary p := by
  unfold prepare at h
  split at h
  · cases h
  rename_i target htarget
  split at h
  · cases h
  rename_i hprovider
  split at h
  · cases h
  split at h
  · cases h
  obtain ⟨u, hcheck, h⟩ := ok_of_bind h
  split at h
  · cases h
  split at h
  · cases h
  split at h
  · cases h
  split at h
  · cases h
  split at h
  · cases h
  split at h
  · cases h
  obtain ⟨comments, hcomments, h⟩ := ok_of_bind h
  cases h
  exact ⟨htarget, not_not.mp hprovider, hcheck, rfl, rfl, rfl, rfl, prepareComments_ok hcomments, rfl⟩

/-- What is checked of a review before its comments are, the identity of the snapshot apart. -/
structure Preparable (rules : ReviewRules) (s : Snapshot) (drafts : List Draft) (verdict : Verdict)
    (summary : String) (target : RemoteTarget) : Prop where
  remote : s.remote = some target
  provider : rules.id = target.provider
  writable : rules.readOnlyReason = none
  single : target.compare = none
  checked : rules.check verdict summary drafts = .ok ()
  complete : s.warnings = []
  isOpen : target.isOpen = true
  settled : target.pendingReview = false
  summarized : verdict = .approve ∨ isBlank summary = false
  small : (asBytes summary).length ≤ 64 * 1024 ∧ drafts.length ≤ 100

theorem Preparable.prepare_eq {drafts : List Draft} {p : PreparedReview}
    (h : Preparable rules s drafts p.verdict p.summary p.target) (hs : p.snapshot = s.id)
    (hid : s.verifyIdentity hashes = true)
    (hc : prepareComments rules s p.target [] drafts = .ok p.comments)
    (hpay : rules.payload { p with fingerprint := "" } = rules.payload p)
    (hf : p.computeFingerprint hashes rules = p.fingerprint) :
    prepare hashes rules p.id s drafts p.verdict p.summary = .ok p := by
  obtain ⟨hremote, hprovider, hwritable, hsingle, hchecked, hcomplete, hopen, hsettled, hsummary,
    hsmall⟩ := h
  have hblank : ¬(p.verdict ≠ .approve ∧ isBlank p.summary) := by
    rintro ⟨hv, hb⟩
    rcases hsummary with hsummary | hsummary
    · exact hv hsummary
    · rw [hsummary] at hb
      cases hb
  have hsize : ¬((asBytes p.summary).length > 64 * 1024 ∨ drafts.length > 100) := by
    omega
  unfold prepare
  rw [hremote]
  dsimp only
  rw [if_neg (not_not.mpr hprovider), hwritable]
  dsimp only
  rw [if_neg (not_not.mpr hsingle), hchecked, ok_bind, if_neg (not_not.mpr hid),
    if_neg (not_not.mpr hcomplete), if_neg (not_not.mpr hopen), hsettled, if_neg (by decide),
    if_neg hblank, if_neg hsize, hc, ok_bind]
  -- The payload apart, the fingerprint is no part of what is hashed for it.
  have hblank : PreparedReview.computeFingerprint hashes rules { p with fingerprint := "" } =
      p.fingerprint := by
    rw [← hf]
    unfold PreparedReview.computeFingerprint PreparedReview.fingerprinted
    rw [hpay]
  rw [← hs]
  exact congrArg (fun f => Except.ok { p with fingerprint := f }) hblank

end Proof
end Diffz
