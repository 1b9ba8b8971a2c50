import Diffz.Proof.Fingerprint
import Diffz.Proof.Patch.Paths

/-!
# What identities tell apart

Every identity of the program is a digest of a list of byte strings. The framing is injective, so
two identities that SHA-256 does not confuse are of one list: `identities_distinct`. What is hashed
for a file are its two paths, and no path is empty, so a missing path is told apart as well.
-/

set_option autoImplicit false

namespace Diffz
namespace Proof
namespace Identities

open Patch

variable {hashes : Hashes} {s : Set Bytes} {a b : List Bytes}

/-! ## Digests -/

/-- The lengths fit in a `u64`, and what is hashed is in `s`. -/
def Hashed (s : Set Bytes) (parts : List Bytes) : Prop :=
  (∀ p ∈ parts, p.length < 2 ^ 64) ∧ framed parts ∈ s

theorem digest_ne (hc : CollisionFree hashes.sha256 s) (ha : Hashed s a) (hb : Hashed s b)
    (h : a ≠ b) : digest hashes.sha256 a ≠ digest hashes.sha256 b :=
  fun hd => h (framed_inj ha.1 hb.1 (hc.digest ha.2 hb.2 hd))

/-! ## Files -/

/-- The bytes of a path; a missing one has none. -/
def pathBytes (p : Option RepoPath) : Bytes := (p.map (·.bytes)).getD []

theorem path_ne_nil (p : RepoPath) : p.bytes ≠ [] := by
  intro h
  have hv := p.valid
  rw [h] at hv
  exact absurd hv (by decide)

theorem pathBytes_injective : Function.Injective pathBytes := by
  intro p q h
  cases p with
  | none =>
    cases q with
    | none => rfl
    | some q => exact absurd h.symm (path_ne_nil q)
  | some p =>
    cases q with
    | none => exact absurd h (path_ne_nil p)
    | some q =>
      obtain ⟨p, hp⟩ := p
      obtain ⟨q, hq⟩ := q
      obtain rfl : p = q := h
      rfl

/-- What the identity of a file is a digest of. -/
def fileParts (f : FileChange) : List Bytes :=
  [asBytes "file-v1", pathBytes f.oldPath, pathBytes f.newPath]

theorem fileParts_ne {f g : FileChange} (h : (f.oldPath, f.newPath) ≠ (g.oldPath, g.newPath)) :
    fileParts f ≠ fileParts g := by
  intro hp
  simp only [fileParts, List.cons.injEq, and_true, true_and] at hp
  exact h (Prod.ext (pathBytes_injective hp.1) (pathBytes_injective hp.2))

theorem finishFile_id {sha256 : Bytes → Bytes} {f₀ f : FileChange} {i : Nat}
    (h : finishFile sha256 f₀ i = .ok f) : f.id = ⟨digest sha256 (fileParts f)⟩ := by
  unfold finishFile at h
  split at h
  · cases h
  · cases h
    rfl

/-- Two files that end up with different paths, of one patch or of two, have different ids; a file
is therefore refused as a duplicate only after one with its own paths. -/
theorem finishFile_ids_ne (hc : CollisionFree hashes.sha256 s) {f₀ g₀ f g : FileChange} {i j : Nat}
    (hf : finishFile hashes.sha256 f₀ i = .ok f) (hg : finishFile hashes.sha256 g₀ j = .ok g)
    (hfs : Hashed s (fileParts f)) (hgs : Hashed s (fileParts g))
    (hne : (f.oldPath, f.newPath) ≠ (g.oldPath, g.newPath)) : f.id ≠ g.id := by
  rw [finishFile_id hf, finishFile_id hg]
  intro h
  exact digest_ne hc hfs hgs (fileParts_ne hne) (congrArg FileId.val h)

theorem parsePatch_finished {sha256 : Bytes → Bytes} {bytes : Bytes} {limits : ParseLimits}
    {report : PatchReport} (h : parsePatch sha256 bytes limits = .ok report) :
    ∀ f ∈ report.files, ∃ f₀ i, finishFile sha256 f₀ i = .ok f := by
  refine (forall_mem_iff_of_forall₂ ?_ (parsePatch_entries h)).mpr fun _ _ => trivial
  rintro tail f ⟨l, rest, totalRows, i, c, -, hs⟩
  obtain ⟨old, new, f₁, -, -, hfin⟩ := (fileSection_run hs).run
  exact ⟨fun _ => trivial, fun _ => ⟨f₁, c.i, hfin⟩⟩

/-! ## Reviews, snapshots and release lists -/

/-- What the fingerprint of a review is a digest of. -/
def reviewParts (rules : ReviewRules) (p : PreparedReview) : List Bytes :=
  [asBytes "review-v1", (p.fingerprinted rules).toVec]

/-- What the identity of a snapshot is a digest of. -/
def snapshotParts (patch : PatchReport) (remote : Option RemoteTarget) (origin : String) :
    List Bytes :=
  let source := remote.map fun r => Json.arr [r.repository.toJson, .num r.pr, .str r.targetTip,
    .str r.comparisonBase, .str r.head, .str r.account]
  [((remote.map RemoteTarget.provider).getD ProviderId.github).identityTag,
    Json.toVec (.arr [.str origin, patch.legacyJson, source.getD .null])] ++
  ((remote.filter fun r => r.provider = .entire).map fun r =>
    Json.toVec ((r.entire.map EntireTarget.toJson).getD .null)).toList

theorem identity_eq (patch : PatchReport) (remote : Option RemoteTarget) (origin : String) :
    Snapshot.identity hashes patch remote origin =
      ⟨digest hashes.sha256 (snapshotParts patch remote origin)⟩ := by
  unfold Snapshot.identity snapshotParts
  cases remote.filter fun r => r.provider = .entire with
  | none => rfl
  | some r => rfl

/-- What the key of a release list is a digest of. -/
def releasesParts (releases : List Release) : List Bytes :=
  [asBytes "releases-v1", Json.toVec (.arr (releases.map Release.toJson))]

/-- **Identities are told apart.** The stream that is hashed determines the list it was made from.
Where SHA-256 does not collide, files with different paths have different ids, and reviews,
snapshots and release lists that are encoded differently have different identities. -/
theorem identities_distinct (hc : CollisionFree hashes.sha256 s) :
    (∀ as bs : List Bytes, (∀ a ∈ as, a.length < 2 ^ 64) → (∀ b ∈ bs, b.length < 2 ^ 64) →
      framed as = framed bs → as = bs) ∧
    (∀ f₀ g₀ f g i j, finishFile hashes.sha256 f₀ i = .ok f →
      finishFile hashes.sha256 g₀ j = .ok g → Hashed s (fileParts f) → Hashed s (fileParts g) →
      (f.oldPath, f.newPath) ≠ (g.oldPath, g.newPath) → f.id ≠ g.id) ∧
    (∀ bytes limits report, parsePatch hashes.sha256 bytes limits = .ok report →
      ∀ f ∈ report.files, ∀ g ∈ report.files, Hashed s (fileParts f) → Hashed s (fileParts g) →
      (f.oldPath, f.newPath) ≠ (g.oldPath, g.newPath) → f.id ≠ g.id) ∧
    (∀ rules p rules' q, Hashed s (reviewParts rules p) → Hashed s (reviewParts rules' q) →
      reviewParts rules p ≠ reviewParts rules' q →
      p.computeFingerprint hashes rules ≠ q.computeFingerprint hashes rules') ∧
    (∀ patch remote origin patch' remote' origin', Hashed s (snapshotParts patch remote origin) →
      Hashed s (snapshotParts patch' remote' origin') →
      snapshotParts patch remote origin ≠ snapshotParts patch' remote' origin' →
      Snapshot.identity hashes patch remote origin ≠
        Snapshot.identity hashes patch' remote' origin') ∧
    (∀ releases releases', Hashed s (releasesParts releases) → Hashed s (releasesParts releases') →
      releasesParts releases ≠ releasesParts releases' →
      releasesKey hashes.sha256 releases ≠ releasesKey hashes.sha256 releases') := by
  refine ⟨fun _ _ => framed_inj, ?_, ?_, ?_, ?_, ?_⟩
  · intro f₀ g₀ f g i j hf hg
    exact finishFile_ids_ne hc hf hg
  · intro bytes limits report hparse f hf g hg
    obtain ⟨f₀, i, hfin⟩ := parsePatch_finished hparse f hf
    obtain ⟨g₀, j, hgin⟩ := parsePatch_finished hparse g hg
    exact finishFile_ids_ne hc hfin hgin
  · intro rules p rules' q hp hq hne
    exact digest_ne hc hp hq hne
  · intro patch remote origin patch' remote' origin' hs hs' hne h
    rw [identity_eq, identity_eq] at h
    exact digest_ne hc hs hs' hne (congrArg SnapshotId.val h)
  · intro releases releases' hs hs' hne
    exact digest_ne hc hs hs' hne

/-! ### Two files with their paths exchanged -/

theorem validPath_y : validPath (asBytes "y") = true := by
  decide

def pathY : RepoPath := ⟨asBytes "y", validPath_y⟩

/-- What is hashed for a file that was moved. -/
def movedParts (old new : RepoPath) : List Bytes := [asBytes "file-v1", old.bytes, new.bytes]

theorem exchanged_collisionFree : CollisionFree sampleHashes.sha256
    {framed (movedParts samplePath pathY), framed (movedParts pathY samplePath)} := by
  apply collisionFree_of_nodup
    [framed (movedParts samplePath pathY), framed (movedParts pathY samplePath)]
  · rintro b (rfl | rfl)
    · exact List.mem_cons_self
    · exact List.mem_cons_of_mem _ List.mem_cons_self
  · decide +kernel

theorem exchanged_ids_distinct : ∃ f g,
    finishFile Sha256.sha256 (newFile (some samplePath) (some pathY)) 4 = .ok f ∧
    finishFile Sha256.sha256 (newFile (some pathY) (some samplePath)) 8 = .ok g ∧ f.id ≠ g.id := by
  refine ⟨_, _, rfl, rfl, ?_⟩
  have hpaths : (some samplePath, some pathY) ≠ (some pathY, some samplePath) := by
    decide
  exact (identities_distinct exchanged_collisionFree).2.1 (newFile (some samplePath) (some pathY))
    (newFile (some pathY) (some samplePath)) _ _ 4 8 rfl rfl ⟨by decide, .inl rfl⟩
    ⟨by decide, .inr rfl⟩ hpaths

end Identities
end Proof
end Diffz
