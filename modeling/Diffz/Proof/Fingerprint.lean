import Diffz.Adapters.Service
import Diffz.Lib.JsonBytes
import Diffz.Lib.JsonText
import Diffz.Lib.Sha256
import Diffz.Proof.Digest
import Diffz.Proof.Prepare

/-!
# What a fingerprint binds

A fingerprint is a digest of the operation's id, snapshot, target, payload and the versions of its
drafts. As long as SHA-256 does not collide on what was hashed, two reviews with one fingerprint
agree on all of these, so a review that is published is the review that was prepared.
-/

set_option autoImplicit false

namespace Diffz
namespace Proof

variable {hashes : Hashes} {rules rules' : ReviewRules} {p q : PreparedReview}

/-- The bytes hashed for a fingerprint. -/
def fingerprintKey (rules : ReviewRules) (p : PreparedReview) : Bytes :=
  framed [asBytes "review-v1", (p.fingerprinted rules).toVec]

theorem fingerprintKey_inj (h : fingerprintKey rules p = fingerprintKey rules' q) :
    p.fingerprinted rules = q.fingerprinted rules' :=
  Json.toVec_injective (framed_pair_inj h)

/-! ## Targets -/

/-- A field under `skip_serializing_if` that is followed by one of another name. -/
theorem skipNone_append_inj {key : String} {a b : Option Json} {l l' : List (String × Json)}
    (hl : ∀ v ∈ l.head?, v.1 ≠ key) (hl' : ∀ v ∈ l'.head?, v.1 ≠ key)
    (h : skipNone key a ++ l = skipNone key b ++ l') : a = b ∧ l = l' := by
  cases a with
  | none =>
    cases b with
    | none => exact ⟨rfl, h⟩
    | some y =>
      have h : l = (key, y) :: l' := h
      exact absurd rfl (hl (key, y) (by rw [h]; rfl))
  | some x =>
    cases b with
    | none =>
      have h : (key, x) :: l = l' := h
      exact absurd rfl (hl' (key, x) (by rw [← h]; rfl))
    | some y =>
      have h : (key, x) :: l = (key, y) :: l' := h
      cases h
      exact ⟨rfl, rfl⟩

theorem skipNone_inj {key : String} {a b : Option Json} (h : skipNone key a = skipNone key b) :
    a = b := by
  have happ : skipNone key a ++ [] = skipNone key b ++ [] := by rw [h]
  exact (skipNone_append_inj (by simp) (by simp) happ).1

theorem repositoryKey_toJson_inj {a b : RepositoryKey} (h : a.toJson = b.toJson) : a = b := by
  cases a
  cases b
  simpa [RepositoryKey.toJson, Int.natCast_inj] using h

theorem compareRefs_toJson_inj {a b : CompareRefs} (h : a.toJson = b.toJson) : a = b := by
  cases a
  cases b
  simpa [CompareRefs.toJson] using h

theorem entireTarget_toJson_inj {a b : EntireTarget} (h : a.toJson = b.toJson) : a = b := by
  obtain ⟨_, _, _, _, _, _, x⟩ := a
  obtain ⟨_, _, _, _, _, _, y⟩ := b
  simp only [EntireTarget.toJson, Json.obj.injEq, List.cons_append, List.nil_append,
    List.cons.injEq, Prod.mk.injEq, true_and, Json.str.injEq] at h
  obtain ⟨rfl, rfl, rfl, rfl, rfl, rfl, hx⟩ := h
  obtain rfl : x = y := Option.map_injective (fun _ _ => Json.str.inj) (skipNone_inj hx)
  rfl

theorem remoteTarget_toJson_inj {a b : RemoteTarget} (h : a.toJson = b.toJson) : a = b := by
  obtain ⟨pa, _, _, _, _, _, _, _, _, ma, _, ca, ea⟩ := a
  obtain ⟨pb, _, _, _, _, _, _, _, _, mb, _, cb, eb⟩ := b
  simp only [RemoteTarget.toJson, Json.obj.injEq, List.append_assoc, List.cons_append,
    List.nil_append] at h
  obtain ⟨hp, h₁⟩ := skipNone_append_inj (by simp) (by simp) h
  clear h
  simp only [List.cons.injEq, Prod.mk.injEq, true_and, Json.str.injEq, Json.num.injEq,
    Json.bool.injEq, Int.natCast_inj] at h₁
  obtain ⟨hrepo, rfl, rfl, rfl, rfl, rfl, rfl, rfl, h₂⟩ := h₁
  cases repositoryKey_toJson_inj hrepo
  obtain ⟨hm, h₃⟩ := skipNone_append_inj (by simp) (by simp) h₂
  clear h₂
  simp only [List.cons.injEq, Prod.mk.injEq, true_and, Json.bool.injEq] at h₃
  obtain ⟨rfl, h₄⟩ := h₃
  obtain ⟨hc, h₅⟩ := skipNone_append_inj (by cases ea <;> simp [skipNone])
    (by cases eb <;> simp [skipNone]) h₄
  obtain rfl : ca = cb := Option.map_injective (fun _ _ => compareRefs_toJson_inj) hc
  obtain rfl : ea = eb := Option.map_injective (fun _ _ => entireTarget_toJson_inj) (skipNone_inj h₅)
  obtain rfl : ma = mb := by
    cases ma <;> cases mb <;> first | rfl | cases hm
  obtain rfl : pa = pb := by
    -- GitHub is the provider that is not written.
    by_cases ha : pa = .github <;> by_cases hb : pb = .github
    · rw [ha, hb]
    · simp [ha, hb] at hp
    · simp [ha, hb] at hp
    · simp only [ha, hb, if_false, Option.some.injEq, Json.str.injEq] at hp
      cases pa
      cases pb
      exact congrArg ProviderId.mk hp
  rfl

/-! ## Reviews -/

/-- The drafts of a review, each with the version that was previewed. -/
def versionsOf (p : PreparedReview) : List (DraftId × Nat) :=
  p.comments.map fun c => (c.draft, c.version)

/-- The two reviews agree on everything the fingerprint covers; the payload of each is that of its
own provider. -/
structure Bound (rules rules' : ReviewRules) (p q : PreparedReview) : Prop where
  id : p.id = q.id
  snapshot : p.snapshot = q.snapshot
  target : p.target = q.target
  payload : rules.payload p = rules'.payload q
  versions : versionsOf p = versionsOf q

theorem bound_of_fingerprinted (h : p.fingerprinted rules = q.fingerprinted rules') :
    Bound rules rules' p q := by
  simp only [PreparedReview.fingerprinted, Json.arr.injEq, List.cons.injEq, Json.str.injEq,
    and_true] at h
  obtain ⟨hid, hsnap, htarget, hpayload, hv⟩ := h
  refine ⟨?_, ?_, remoteTarget_toJson_inj htarget, hpayload, ?_⟩
  · cases hp : p.id
    cases hq : q.id
    rw [hp, hq] at hid
    exact congrArg OperationId.mk hid
  · cases hp : p.snapshot
    cases hq : q.snapshot
    rw [hp, hq] at hsnap
    exact congrArg SnapshotId.mk hsnap
  · have hinj : Function.Injective fun x : DraftId × Nat =>
        Json.arr [.str x.1.val, .num x.2] := by
      rintro ⟨⟨x⟩, m⟩ ⟨⟨y⟩, n⟩ hxy
      simpa [Int.natCast_inj] using hxy
    have hpairs : ∀ r : PreparedReview,
        r.comments.map (fun c => Json.arr [.str c.draft.val, .num c.version]) =
          (versionsOf r).map fun x => Json.arr [.str x.1.val, .num x.2] := by
      intro r
      rw [versionsOf, List.map_map]
      rfl
    rw [hpairs, hpairs] at hv
    exact List.map_injective_iff.mpr hinj hv

/-- **One fingerprint, one review.** -/
theorem fingerprint_binds {s : Set Bytes} (hc : CollisionFree hashes.sha256 s)
    (hp : fingerprintKey rules p ∈ s) (hq : fingerprintKey rules' q ∈ s)
    (hvp : p.verify hashes rules) (hvq : q.verify hashes rules')
    (h : p.fingerprint = q.fingerprint) : Bound rules rules' p q := by
  simp only [PreparedReview.verify, Bool.and_eq_true, decide_eq_true_eq] at hvp hvq
  rw [hvp.2, hvq.2] at h
  exact bound_of_fingerprinted (fingerprintKey_inj (hc.digest hp hq h))

theorem verify_provider (h : p.verify hashes rules) : rules.id = p.target.provider := by
  simp only [PreparedReview.verify, Bool.and_eq_true, decide_eq_true_eq] at h
  exact h.1

/-! ## Digests by hand -/

theorem computeFingerprint_written (hashes : Hashes) (rules : ReviewRules) (p : PreparedReview) :
    p.computeFingerprint hashes rules =
      digest hashes.sha256 [asBytes "review-v1", (p.fingerprinted rules).written []] := by
  rw [PreparedReview.computeFingerprint, PreparedReview.fingerprintOf, Json.toVec_eq_written]

theorem identity_written (hashes : Hashes) (s : Snapshot) {r : RemoteTarget}
    (hr : s.remote = some r) (he : r.provider ≠ .entire) :
    Snapshot.identity hashes s.patch s.remote s.origin =
      ⟨digest hashes.sha256 [r.provider.identityTag,
        (Json.arr [.str s.origin, s.patch.legacyJson, .arr [r.repository.toJson, .num r.pr,
          .str r.targetTip, .str r.comparisonBase, .str r.head, .str r.account]]).written []]⟩ := by
  rw [hr, Snapshot.identity, Option.filter_some_neg (by simpa using he), Json.toVec_eq_written]
  rfl

/-! ## A review

A snapshot of a one-line change and a review of it, with the digests SHA-256 gives. The runs that
are followed in the modules after this one are about them. -/

/-- SHA-256; GitHub's rules use no other hash. -/
def sampleHashes : Hashes := ⟨Sha256.sha256, fun _ => []⟩

def sampleTarget : RemoteTarget :=
  { provider := .github, repository := ⟨"github.com", 7, "o", "n"⟩, account := "alice", pr := 12,
    targetTip := "a1", comparisonBase := "b2", head := "c3", isOpen := true, draft := false,
    merged := false, pendingReview := false, compare := none, entire := none }

def samplePath : RepoPath := ⟨asBytes "x", by decide⟩

def sampleFile : FileChange :=
  { id := ⟨"979360d95188926dbc7f22645f0d02ebbcfbc6b009caa15ddf645d2f3bff0ffb"⟩
    oldPath := some samplePath, newPath := some samplePath, kind := .modified, content := .text
    oldMode := none, newMode := none, oldOid := none, newOid := none, metadata := []
    hunks := [⟨1, 1, 1, 1, "", [⟨some 1, none, "a", .lf, .removed⟩,
      ⟨none, some 1, "b", .lf, .added⟩]⟩] }

def sampleSnapshot : Snapshot :=
  { id := ⟨"2e54c3aadeee46258223e931d17601154b8e540fcb74a09830567d00eaa30378"⟩
    title := "Fix the readme", origin := "patch-bytes", patch := ⟨[sampleFile]⟩
    remote := some sampleTarget, comments := [], overview := .empty, warnings := [] }

theorem sampleSnapshot_verified : sampleSnapshot.verifyIdentity sampleHashes = true := by
  rw [Snapshot.verifyIdentity, identity_written sampleHashes sampleSnapshot rfl (by decide)]
  decide +kernel

def sampleDraft : Draft :=
  { id := ⟨"d1"⟩, snapshot := sampleSnapshot.id, file := sampleFile.id, side := .right
    startLine := 1, line := 1, fileLevel := false, body := "note d1", version := 2
    savedVersion := 2, published := false }

/-- The review of the draft under a given operation id. -/
def sampleReview (id fingerprint : String) : PreparedReview :=
  { id := ⟨id⟩, snapshot := sampleSnapshot.id, target := sampleTarget, verdict := .approve
    summary := "", fingerprint
    comments := [⟨⟨"d1"⟩, 2, "x", none, "note d1", .right, 1, 1, false⟩] }

def firstReview : PreparedReview :=
  sampleReview "op-1" "0d2c30f00e64537dd45f758cebe46fd3416ad08ea173253f2d07bce37e8d111c"

def secondReview : PreparedReview :=
  sampleReview "op-2" "b277a5694b2d5415f98bdc3b2b7ef4620f191d114541bda8ec085e192fc8c363"

deriving instance DecidableEq for PreparedComment, PreparedReview

/-- A review is verified where its fingerprint is the one computed. -/
theorem verify_of_fingerprint (hr : rules.id = p.target.provider)
    (hf : p.computeFingerprint hashes rules = p.fingerprint) : p.verify hashes rules = true := by
  simp only [PreparedReview.verify, Bool.and_eq_true, decide_eq_true_eq]
  exact ⟨hr, hf.symm⟩

theorem firstReview_fingerprint :
    firstReview.computeFingerprint sampleHashes Github.rules = firstReview.fingerprint := by
  rw [computeFingerprint_written]
  decide +kernel

theorem firstReview_verified : firstReview.verify sampleHashes Github.rules = true :=
  verify_of_fingerprint rfl firstReview_fingerprint

theorem secondReview_fingerprint :
    secondReview.computeFingerprint sampleHashes Github.rules = secondReview.fingerprint := by
  rw [computeFingerprint_written]
  decide +kernel

theorem secondReview_verified : secondReview.verify sampleHashes Github.rules = true :=
  verify_of_fingerprint rfl secondReview_fingerprint

theorem sample_preparable (d : Draft) :
    Preparable Github.rules sampleSnapshot [d] .approve "" sampleTarget where
  remote := rfl
  provider := rfl
  writable := rfl
  single := rfl
  checked := rfl
  complete := rfl
  isOpen := rfl
  settled := rfl
  summarized := .inl rfl
  small := ⟨by decide, (by decide : 1 ≤ 100)⟩

theorem sampleComments_prepared : PreparedReview.prepareComments Github.rules sampleSnapshot
    sampleTarget [] [sampleDraft] = .ok firstReview.comments :=
  ok_of_toOption (by decide +kernel)

theorem firstReview_prepared : PreparedReview.prepare sampleHashes Github.rules ⟨"op-1"⟩
    sampleSnapshot [sampleDraft] .approve "" = .ok firstReview :=
  (sample_preparable sampleDraft).prepare_eq (p := firstReview) rfl sampleSnapshot_verified
    sampleComments_prepared rfl firstReview_fingerprint

/-- Reviews with different fingerprints were hashed to different digests. -/
theorem fingerprintKeys_nodup (ps : List (ReviewRules × PreparedReview))
    (h : (ps.map fun x => x.2.computeFingerprint hashes x.1).Nodup) :
    ((ps.map fun x => fingerprintKey x.1 x.2).map hashes.sha256).Nodup := by
  refine List.Nodup.of_map hex ?_
  rw [List.map_map, List.map_map]
  exact h

/-- No two of the given byte strings hash alike. -/
theorem collisionFree_of_nodup {sha256 : Bytes → Bytes} {s : Set Bytes} (keys : List Bytes)
    (hs : ∀ b ∈ s, b ∈ keys) (h : (keys.map sha256).Nodup) : CollisionFree sha256 s :=
  fun _ ha _ hb hab => List.inj_on_of_nodup_map h (hs _ ha) (hs _ hb) hab

end Proof
end Diffz
