import Diffz.Proof.Fingerprint
import Diffz.Proof.Prepare

/-!
# A GitHub review is recognised unless it has a comment on a whole file

`publish` compares the comments GitHub lists with the prepared ones by path, body, side and lines.
The payload of a comment on lines has all of these, and a single line stands for its own start. The
payload of a comment on a whole file has neither a line nor a side, and `comment_key` has no other
way to read it, so such a review stays unresolved although GitHub took it.
-/

set_option autoImplicit false

namespace Diffz
namespace Proof

variable {hashes : Hashes} {p : PreparedReview} {response : Json} {comments : List Json}

/-! ## Matching -/

/-- Sorting forgets the order and nothing else. -/
theorem mergeSort_eq_iff_perm {l l' : List CommentKey} :
    l.mergeSort (· ≤ ·) = l'.mergeSort (· ≤ ·) ↔ l.Perm l' := by
  constructor
  · intro h
    have hl := List.mergeSort_perm l (· ≤ ·)
    rw [h] at hl
    exact hl.symm.trans (List.mergeSort_perm l' (· ≤ ·))
  · intro h
    have hperm := ((List.mergeSort_perm l (· ≤ ·)).trans h).trans
      (List.mergeSort_perm l' (· ≤ ·)).symm
    exact hperm.eq_of_sortedLE List.sortedLE_mergeSort List.sortedLE_mergeSort

theorem mapM_eq_some_iff {α β : Type} {f : α → Option β} {l : List α} {k : List β} :
    l.mapM f = some k ↔ l.map f = k.map some := by
  induction l generalizing k with
  | nil => cases k <;> simp
  | cons x l ih =>
    rw [List.mapM_cons, List.map_cons]
    cases hx : f x with
    | none => cases k <;> simp
    | some y =>
      cases k with
      | nil => cases hl : l.mapM f <;> simp
      | cons z k =>
        have ih := ih (k := k)
        cases hl : l.mapM f with
        | none =>
          rw [hl] at ih
          simpa using fun _ => ih.not.mp (by simp)
        | some k' =>
          rw [hl, Option.some.injEq] at ih
          simpa using fun _ => ih

/-- **When a review matches**: the metadata agree, and the keys of the listed comments are those of
the prepared ones, in some order. -/
theorem matchesReview_iff {marked : Bool} :
    matchesReview p response comments marked = true ↔
      matchesMetadata p response marked = true ∧
        ∃ keys, comments.map commentKey = keys.map some ∧
          (p.comments.map PreparedComment.key).Perm keys := by
  unfold matchesReview
  constructor
  · intro h
    split at h
    · cases h
    rename_i hmeta
    simp only [not_or, not_not] at hmeta
    split at h
    · cases h
    rename_i keys hkeys
    exact ⟨hmeta.1, keys, mapM_eq_some_iff.mp hkeys, mergeSort_eq_iff_perm.mp (by simpa using h)⟩
  · rintro ⟨hmeta, keys, hkeys, hperm⟩
    have hlen : comments.length = p.comments.length := by
      have hk := congrArg List.length hkeys
      have hp := hperm.length_eq
      simp only [List.length_map] at hk hp
      rw [hk, hp]
    rw [if_neg (by simp [hmeta, hlen]), mapM_eq_some_iff.mpr hkeys]
    simpa using mergeSort_eq_iff_perm.mpr hperm

/-! ## What GitHub answers -/

/-- The server took the review: it shows what was sent, and one comment for each that was sent, in
any order, with the fields it was sent with. -/
structure Echoed (p : PreparedReview) (response : Json) (comments : List Json) : Prop where
  commit : response.get "commit_id" = .str p.target.head
  state : response.get "state" = .str p.verdict.remoteState
  body : response.get "body" = .str p.summary
  user : (response.get "user").get "login" = .str p.target.account
  comments : comments.Perm (p.comments.map Github.payloadComment)

theorem Echoed.metadata (h : Echoed p response comments) :
    matchesMetadata p response false = true := by
  simp [matchesMetadata, Json.isStr, h.commit, h.state, h.body, h.user]

/-! ## Keys -/

/-- A comment on a whole file is not recognised. -/
theorem commentKey_fileLevel {c : PreparedComment} (h : c.fileLevel = true) :
    commentKey (Github.payloadComment c) = none := by
  simp [commentKey, Github.payloadComment, h, Json.get]

/-- A comment on lines is found under its key. -/
theorem commentKey_lines {c : PreparedComment} (h : c.fileLevel = false)
    (hle : c.startLine ≤ c.line) : commentKey (Github.payloadComment c) = some c.key := by
  by_cases hlt : c.startLine < c.line
  · simp [commentKey, Github.payloadComment, h, hlt, Json.get, skipNone, PreparedComment.key]
  · -- A single line is sent without a start, which is then the line itself.
    have heq : c.startLine = c.line := Nat.le_antisymm hle (Nat.not_lt.mp hlt)
    simp [commentKey, Github.payloadComment, h, heq, Json.get, skipNone, PreparedComment.key]

theorem le_of_eligible {f : FileChange} {side : Side} {start last : Nat}
    (h : f.eligible side start last) : start ≤ last := by
  simp only [FileChange.eligible, Bool.and_eq_true, decide_eq_true_eq] at h
  exact h.1.1.2

/-- The comments of an accepted review are on whole files where its drafts are, and their lines are
in order. -/
theorem accepted_comments {rules : ReviewRules} {s : Snapshot} {target : RemoteTarget}
    {drafts : List Draft} {cs : List PreparedComment}
    (h : List.Forall₂ (fun d c => ∃ f, Accepted rules s target d c f) drafts cs) :
    ((∀ d ∈ drafts, d.fileLevel = false) ↔ ∀ c ∈ cs, c.fileLevel = false) ∧
      ∀ c ∈ cs, c.fileLevel = false → c.startLine ≤ c.line := by
  induction h with
  | nil => simp
  | cons hdc _ ih =>
    obtain ⟨f, hacc⟩ := hdc
    refine ⟨?_, ?_⟩
    · simp only [List.forall_mem_cons, ← hacc.fileLevel, ih.1]
    · refine List.forall_mem_cons.mpr ⟨?_, ih.2⟩
      intro hline
      rw [hacc.startLine, hacc.line]
      rw [hacc.fileLevel] at hline
      exact le_of_eligible (hacc.eligible hline)

/-- The keys of the listed comments, when every comment is on lines. -/
theorem Echoed.keys (h : Echoed p response comments)
    (hkeys : ∀ c ∈ p.comments, commentKey (Github.payloadComment c) = some c.key) :
    ∃ keys, comments.map commentKey = keys.map some ∧
      (p.comments.map PreparedComment.key).Perm keys := by
  have hsome : ∀ j ∈ comments, commentKey j = some ((commentKey j).getD (.mk "" "" "" 0 0)) := by
    intro j hj
    obtain ⟨c, hc, rfl⟩ := List.mem_map.mp (h.comments.mem_iff.mp hj)
    rw [hkeys c hc]
    rfl
  refine ⟨comments.map fun j => (commentKey j).getD (.mk "" "" "" 0 0), ?_, ?_⟩
  · rw [List.map_map]
    exact List.map_congr_left hsome
  · have hperm := h.comments.map fun j => (commentKey j).getD (.mk "" "" "" 0 0)
    rw [List.map_map] at hperm
    have hmap : p.comments.map ((fun j => (commentKey j).getD (.mk "" "" "" 0 0)) ∘
        Github.payloadComment) = p.comments.map PreparedComment.key := by
      apply List.map_congr_left
      intro c hc
      rw [Function.comp_apply, hkeys c hc]
      rfl
    rw [hmap] at hperm
    exact hperm.symm

theorem Echoed.matches_iff (h : Echoed p response comments)
    (hle : ∀ c ∈ p.comments, c.fileLevel = false → c.startLine ≤ c.line) :
    matchesReview p response comments false = true ↔ ∀ c ∈ p.comments, c.fileLevel = false := by
  rw [matchesReview_iff]
  constructor
  · rintro ⟨-, keys, hkeys, -⟩ c hc
    cases hfile : c.fileLevel with
    | false => rfl
    | true =>
      have hlisted : Github.payloadComment c ∈ comments :=
        h.comments.mem_iff.mpr (List.mem_map_of_mem hc)
      have hnone : none ∈ comments.map commentKey :=
        List.mem_map.mpr ⟨_, hlisted, commentKey_fileLevel hfile⟩
      rw [hkeys] at hnone
      simp at hnone
  · intro hlines
    exact ⟨h.metadata, h.keys fun c hc => commentKey_lines (hlines c hc) (hle c hc (hlines c hc))⟩

theorem verified_confirmed_iff {rules : ReviewRules} {e : OutboxEntry} :
    (Outbox.verified rules p e response (some comments)).state = .confirmed ↔
      matchesReview p response comments rules.marksReviews = true := by
  unfold Outbox.verified Outbox.unverified
  rw [Option.any_some]
  cases matchesReview p response comments rules.marksReviews <;> simp

/-- **A GitHub review is confirmed exactly when it has no comment on a whole file.** For every
review that is prepared under GitHub's rules, and an answer that shows what was sent: the review is
recognised, and the entry `publish` then writes is `Confirmed`, if and only if every draft is on
lines. -/
theorem github_review_confirmed_iff {id : OperationId} {s : Snapshot} {drafts : List Draft}
    {verdict : Verdict} {summary : String} (e : OutboxEntry)
    (hp : PreparedReview.prepare hashes Github.rules id s drafts verdict summary = .ok p)
    (h : Echoed p response comments) :
    (matchesReview p response comments false = true ↔ ∀ d ∈ drafts, d.fileLevel = false) ∧
      ((Outbox.verified Github.rules p e response (some comments)).state = .confirmed ↔
        ∀ d ∈ drafts, d.fileLevel = false) := by
  obtain ⟨hfile, hle⟩ := accepted_comments (prepare_ok hp).comments
  have hiff : matchesReview p response comments false = true ↔
      ∀ d ∈ drafts, d.fileLevel = false := (h.matches_iff hle).trans hfile.symm
  exact ⟨hiff, verified_confirmed_iff.trans hiff⟩

/-- What GitHub shows of the sample reviews. -/
def sampleShown : Json :=
  .obj [("id", .num 9), ("commit_id", .str "c3"), ("state", .str "APPROVED"), ("body", .str ""),
    ("user", .obj [("login", .str "alice")])]

/-- The first review has one comment, on a line, and is recognised. -/
theorem firstReview_confirmed :
    Echoed firstReview sampleShown (firstReview.comments.map Github.payloadComment) ∧
      matchesReview firstReview sampleShown (firstReview.comments.map Github.payloadComment) false =
        true := by
  have hecho : Echoed firstReview sampleShown (firstReview.comments.map Github.payloadComment) :=
    ⟨rfl, rfl, rfl, rfl, .refl _⟩
  refine ⟨hecho, ?_⟩
  have hiff := github_review_confirmed_iff
    { prepared := firstReview, state := .inFlight, baselineReviewIds := [], remoteId := some 9,
      diagnostic := none } firstReview_prepared hecho
  exact hiff.1.mpr (by simp [sampleDraft])

/-! ### A comment on a whole file -/

def fileDraft : Draft :=
  { sampleDraft with id := ⟨"d2"⟩, startLine := 0, line := 0, fileLevel := true, body := "note d2" }

def fileReview : PreparedReview :=
  { sampleReview "op-3" "e231257ef7c6114b3220e940dce1f60b69835b1106ecee2803cf7861905db153" with
    comments := [⟨⟨"d2"⟩, 2, "x", none, "note d2", .right, 0, 0, true⟩] }

theorem fileReview_fingerprint :
    fileReview.computeFingerprint sampleHashes Github.rules = fileReview.fingerprint := by
  rw [computeFingerprint_written]
  decide +kernel

theorem fileComments_prepared : PreparedReview.prepareComments Github.rules sampleSnapshot
    sampleTarget [] [fileDraft] = .ok fileReview.comments :=
  ok_of_toOption (by decide +kernel)

theorem fileReview_prepared : PreparedReview.prepare sampleHashes Github.rules ⟨"op-3"⟩
    sampleSnapshot [fileDraft] .approve "" = .ok fileReview :=
  (sample_preparable fileDraft).prepare_eq (p := fileReview) rfl sampleSnapshot_verified
    fileComments_prepared rfl fileReview_fingerprint

/-- The review is prepared and taken by GitHub as it was sent, and yet not recognised. -/
theorem fileReview_unrecognised :
    (PreparedReview.prepare sampleHashes Github.rules ⟨"op-3"⟩ sampleSnapshot [fileDraft] .approve
      "").toOption = some fileReview ∧
    Echoed fileReview sampleShown (fileReview.comments.map Github.payloadComment) ∧
    matchesReview fileReview sampleShown (fileReview.comments.map Github.payloadComment) false =
      false := by
  refine ⟨congrArg Except.toOption fileReview_prepared, ⟨rfl, rfl, rfl, rfl, .refl _⟩, ?_⟩
  decide +kernel

end Proof
end Diffz
