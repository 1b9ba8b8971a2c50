import Diffz.Adapters.Writers
import Diffz.Proof.Fingerprint
import Diffz.Proof.Stored

/-!
# What is sent is what was fingerprinted

Everything a writer reads of a review is covered by its fingerprint. GitHub's request is made of the
target and the payload, which are hashed as they are. GitLab's requests are made from the fields of
the review, and its payload spells all of them, so there two reviews with one fingerprint are one
review.
-/

set_option autoImplicit false

namespace Diffz
namespace Proof

open Diffz.Http (Request Response Reply)

variable {hashes : Hashes} {parse : ParseJson} {p q : PreparedReview}

/-! ## GitHub -/

theorem github_send_eq (htarget : p.target = q.target)
    (hpayload : Github.payload p = Github.payload q)
    (hp : p.verify hashes Github.rules) (hq : q.verify hashes Github.rules) :
    Github.send hashes parse p = Github.send hashes parse q := by
  unfold Github.send
  rw [if_neg (not_not.mpr hp), if_neg (not_not.mpr hq), htarget, hpayload]

/-! ## GitLab -/

theorem verdict_toJson_inj {a b : Verdict} (h : a.toJson = b.toJson) : a = b := by
  cases a <;> cases b <;> first | rfl | simp [Verdict.toJson] at h

theorem side_toJson_inj {a b : Side} (h : a.toJson = b.toJson) : a = b := by
  cases a <;> cases b <;> first | rfl | simp [Side.toJson] at h

theorem preparedComment_toJson_inj {a b : PreparedComment} (h : a.toJson = b.toJson) : a = b := by
  obtain ⟨⟨da⟩, _, _, xa, _, _, _, _, _⟩ := a
  obtain ⟨⟨db⟩, _, _, xb, _, _, _, _, _⟩ := b
  simp only [PreparedComment.toJson, Json.obj.injEq, List.cons_append,
    List.nil_append, List.cons.injEq, Prod.mk.injEq, true_and, Json.str.injEq, Json.num.injEq,
    Int.natCast_inj] at h
  obtain ⟨rfl, rfl, rfl, hrest⟩ := h
  -- The position is left out where there is none.
  obtain ⟨rfl, htail⟩ := skipNone_append_inj (by simp) (by simp) hrest
  simp only [List.cons.injEq, Prod.mk.injEq, true_and, and_true, Json.str.injEq, Json.num.injEq,
    Int.natCast_inj, Json.bool.injEq] at htail
  obtain ⟨rfl, hside, rfl, rfl, rfl⟩ := htail
  cases side_toJson_inj hside
  rfl

theorem gitlab_payload_inj (h : Gitlab.payload p = Gitlab.payload q) :
    p.verdict = q.verdict ∧ p.summary = q.summary ∧ p.comments = q.comments := by
  simp only [Gitlab.payload, Json.obj.injEq, List.cons.injEq, Prod.mk.injEq, true_and, and_true,
    Json.str.injEq, Json.arr.injEq] at h
  obtain ⟨-, hverdict, hsummary, hcomments⟩ := h
  exact ⟨verdict_toJson_inj hverdict, hsummary,
    List.map_injective_iff.mpr (fun _ _ => preparedComment_toJson_inj) hcomments⟩

/-- A review for GitLab is what its fingerprint binds. -/
theorem gitlab_bound_eq (h : Bound (Gitlab.rules hashes) (Gitlab.rules hashes) p q)
    (hf : p.fingerprint = q.fingerprint) : p = q := by
  obtain ⟨hverdict, hsummary, hcomments⟩ := gitlab_payload_inj h.payload
  have hid := h.id
  have hsnapshot := h.snapshot
  have htarget := h.target
  cases p
  cases q
  subst hid hsnapshot htarget hverdict hsummary hcomments hf
  rfl

/-! ## Both -/

/-- **The fingerprint binds everything that is sent.** As long as SHA-256 does not collide on the two
reviews, a server gets the same requests for both, whatever it answers. -/
theorem fingerprint_binds_requests (server : List Request → Reply)
    (hf : p.fingerprint = q.fingerprint) :
    (CollisionFree hashes.sha256 {fingerprintKey Github.rules p, fingerprintKey Github.rules q} →
      p.verify hashes Github.rules → q.verify hashes Github.rules →
      (Github.send hashes parse p).requests server =
        (Github.send hashes parse q).requests server) ∧
    (CollisionFree hashes.sha256
        {fingerprintKey (Gitlab.rules hashes) p, fingerprintKey (Gitlab.rules hashes) q} →
      p.verify hashes (Gitlab.rules hashes) → q.verify hashes (Gitlab.rules hashes) →
      (Gitlab.send hashes parse p).requests server =
        (Gitlab.send hashes parse q).requests server) := by
  constructor
  · intro hc hp hq
    have hbound := fingerprint_binds hc (by simp) (by simp) hp hq hf
    rw [github_send_eq hbound.target hbound.payload hp hq]
  · intro hc hp hq
    have hbound := fingerprint_binds hc (by simp) (by simp) hp hq hf
    rw [gitlab_bound_eq hbound hf]

/-- The review under the fingerprint its fields give. -/
def fingerprintedBy (hashes : Hashes) (rules : ReviewRules) (p : PreparedReview) : PreparedReview :=
  { p with fingerprint := p.computeFingerprint hashes rules }

theorem verify_fingerprintedBy {rules : ReviewRules} (hid : rules.id = p.target.provider)
    (hpayload : ∀ f, rules.payload { p with fingerprint := f } = rules.payload p) :
    (fingerprintedBy hashes rules p).verify hashes rules = true := by
  have hsame : (fingerprintedBy hashes rules p).fingerprinted rules = p.fingerprinted rules := by
    simp only [PreparedReview.fingerprinted, fingerprintedBy, hpayload]
  unfold PreparedReview.verify
  rw [Bool.and_eq_true]
  exact ⟨decide_eq_true hid,
    decide_eq_true (congrArg (PreparedReview.fingerprintOf hashes) hsame.symm)⟩

/-- A review of a whole file. GitHub is not told the line of such a comment, so the reviews for two
lines have one payload. -/
def fileReviewAt (line : Nat) : PreparedReview :=
  fingerprintedBy sampleHashes Github.rules { sampleReview "op-3" "" with
    comments := [⟨⟨"d1"⟩, 2, "x", none, "note d1", .right, line, line, true⟩] }

/-- A review on GitLab. -/
def mergeReview : PreparedReview :=
  fingerprintedBy sampleHashes (Gitlab.rules sampleHashes) { sampleReview "op-4" "" with
    target := { sampleTarget with provider := .gitlab }
    comments := [⟨⟨"d1"⟩, 2, "x", some (.obj [("new_line", .num 1)]), "note d1", .right, 1, 1,
      false⟩] }

/-- The reader of JSON text that inverts the writer. -/
noncomputable def parseText : ParseJson := fun bytes =>
  match parseWritten bytes with
  | some j => .ok j
  | none => .error "expected value at line 1 column 1"

theorem collisionFree_same {sha256 : Bytes → Bytes} {a b : Bytes} (h : a = b) :
    CollisionFree sha256 {a, b} := by
  subst h
  intro x hx y hy _
  simp only [Set.mem_insert_iff, Set.mem_singleton_iff, or_self] at hx hy
  rw [hx, hy]

theorem fileReviews_send_alike : fileReviewAt 0 ≠ fileReviewAt 1 ∧
    (Github.send sampleHashes parseText (fileReviewAt 0)).requests
        (fun _ => .ok ⟨500, asBytes "null"⟩) =
      (Github.send sampleHashes parseText (fileReviewAt 1)).requests
        (fun _ => .ok ⟨500, asBytes "null"⟩) ∧
    (Gitlab.send sampleHashes parseText mergeReview).requests
        (fun _ => .ok ⟨500, asBytes "null"⟩) =
      (Gitlab.send sampleHashes parseText mergeReview).requests
        (fun _ => .ok ⟨500, asBytes "null"⟩) := by
  refine ⟨?_, (fingerprint_binds_requests _ ?_).1 ?_ ?_ ?_,
    (fingerprint_binds_requests _ rfl).2 ?_ ?_ ?_⟩
  · intro h
    have hline := congrArg (fun p => p.comments.map PreparedComment.line) h
    simp [fileReviewAt, fingerprintedBy] at hline
  · rfl
  · exact collisionFree_same rfl
  · exact verify_fingerprintedBy rfl fun _ => rfl
  · exact verify_fingerprintedBy rfl fun _ => rfl
  · exact collisionFree_same rfl
  · exact verify_fingerprintedBy rfl fun _ => rfl
  · exact verify_fingerprintedBy rfl fun _ => rfl

end Proof
end Diffz
