import Mathlib.Data.List.Dedup
import Mathlib.Data.List.Perm.Subperm
import Mathlib.Order.Interval.Set.OrdConnected
import Diffz.Lib.Fallible
import Diffz.Proof.Capture.Pages

/-!
# A snapshot of a merge request is whole and of one target

The target is read before and after everything else, account and all, and a snapshot between two
targets that differ is refused; so is one whose files are not those that GitLab lists.
-/

set_option autoImplicit false

namespace Diffz
namespace Proof
namespace Capture

open Diffz.Http Diffz.Dialogue

variable {hashes : Hashes} {parse : ParseJson} {now : Nat} {a : Gitlab.MrAddress}
  {answers : Nat → Request → Reply} {i j k l m n : Nat} {s : Snapshot}

/-! ## Files -/

/-- A list in which another one is, and which has as many members, has no others. -/
theorem mem_iff_of_dedup {α : Type} [DecidableEq α] {xs ys : List α}
    (hlen : xs.dedup.length = ys.dedup.length) (hsub : ∀ x ∈ xs, x ∈ ys) (x : α) :
    x ∈ xs ↔ x ∈ ys := by
  refine ⟨hsub x, fun hx => ?_⟩
  have hsubset : xs.dedup ⊆ ys.dedup := fun y hy =>
    List.mem_dedup.2 (hsub y (List.mem_dedup.1 hy))
  have hperm := (List.subperm_of_subset (List.nodup_dedup xs) hsubset).perm_of_length_le hlen.ge
  exact List.mem_dedup.1 (hperm.mem_iff.2 (List.mem_dedup.2 hx))

/-- The paths that the files of a patch are displayed with. -/
def shownPaths (patch : PatchReport) : List String := patch.files.filterMap FileChange.displayPath

theorem everyFile_iff {patch : PatchReport} {files : List Json} :
    Gitlab.everyFile patch files = true ↔ files.length = patch.files.length ∧
      (∀ path, path ∈ files.map (Gitlab.recordPath (shownPaths patch)) ↔ path ∈ shownPaths patch) ∧
      ∀ f ∈ files, (f.get "too_large").isTrue = false ∧ (f.get "collapsed").isTrue = false := by
  unfold Gitlab.everyFile
  simp only [Bool.and_eq_true, decide_eq_true_eq, Bool.not_eq_true', List.any_eq_false,
    Bool.or_eq_true, not_or, Bool.not_eq_true, List.all_eq_true]
  constructor
  · rintro ⟨⟨⟨hcount, hlen⟩, hsub⟩, hcut⟩
    exact ⟨hcount, mem_iff_of_dedup hlen hsub, hcut⟩
  · rintro ⟨hcount, hpaths, hcut⟩
    refine ⟨⟨⟨hcount, ?_⟩, fun path => (hpaths path).1⟩, hcut⟩
    refine List.Perm.length_eq ((List.perm_ext_iff_of_nodup (List.nodup_dedup _)
      (List.nodup_dedup _)).2 fun path => ?_)
    rw [List.mem_dedup, List.mem_dedup]
    exact hpaths path

/-! ## The target -/

/-- The merge request at a moment, with the account of the target. -/
def MergeAt (parse : ParseJson) (answers : Nat → Request → Reply) (a : Gitlab.MrAddress)
    (t : RemoteTarget) (k : Nat) : Prop :=
  ∃ v user, gitlabJson parse answers a.host a.root k = .ok v ∧ Gitlab.target a v user = .ok t

/-- The account at a moment. -/
def gitlabAccount (parse : ParseJson) (answers : Nat → Request → Reply) (host : String) (k : Nat) :
    Except String String :=
  (gitlabJson parse answers host "user" k).bind fun v =>
    Gitlab.string (v.get "username") "/username"

theorem gitlab_target_account {v user : Json} {t : RemoteTarget}
    (h : Gitlab.target a v user = .ok t) :
    Gitlab.string (user.get "username") "/username" = .ok t.account := by
  unfold Gitlab.target at h
  split at h
  · cases h
  · split at h
    · cases h
    · obtain ⟨account, haccount, h₁⟩ := ok_of_bind h
      obtain ⟨targetTip, -, h₂⟩ := ok_of_bind h₁
      obtain ⟨comparisonBase, -, h₃⟩ := ok_of_bind h₂
      obtain ⟨head, -, h₄⟩ := ok_of_bind h₃
      dsimp only at h₄
      split_ifs at h₄
      cases h₄
      exact haccount

theorem readTarget_between {t : RemoteTarget}
    (h : Between answers m n (Gitlab.readTarget parse a).run (.ok t)) :
    ∃ k q, m ≤ k ∧ k < q ∧ q < n ∧ MergeAt parse answers a t k ∧
      gitlabAccount parse answers a.host q = .ok t.account := by
  obtain ⟨v, m₁, hv, h₁⟩ := Between.of_except_bind h
  obtain ⟨user, m₂, huser, h₂⟩ := Between.of_except_bind h₁
  obtain ⟨htarget, hm₂⟩ := Between.of_done h₂
  obtain ⟨k, hk, hk', hjson⟩ := get_between hv
  obtain ⟨q, hq, hq', hlogin⟩ := get_between huser
  refine ⟨k, q, hk, by omega, by omega, ⟨v, user, hjson, htarget⟩, ?_⟩
  rw [gitlabAccount, hlogin]
  exact gitlab_target_account htarget

/-! ## The snapshot -/

/-- A snapshot that was captured with its target `t`, from the moment `k` at which the merge request
was read first up to the moment `l` at which it was read last. -/
structure MergeCaptured (hashes : Hashes) (parse : ParseJson) (answers : Nat → Request → Reply)
    (a : Gitlab.MrAddress) (t : RemoteTarget) (s : Snapshot) (k l : Nat) : Prop where
  remote : s.remote = some t
  start : MergeAt parse answers a t k
  stop : MergeAt parse answers a t l
  patch : ∃ q r, k < q ∧ q < l ∧ answers q (gitlabRead a.host (a.root ++ "/raw_diffs")) = .ok r ∧
    r.status = 200 ∧ parsePatch hashes.sha256 r.body .default = .ok s.patch
  files : ∃ files, Paged (gitlabPage parse answers a.host (a.root ++ "/diffs")) (k + 1) l 1 files ∧
    files.length = s.patch.files.length ∧
    (∀ path, path ∈ files.map (Gitlab.recordPath (shownPaths s.patch)) ↔
      path ∈ shownPaths s.patch) ∧
    ∀ f ∈ files, (f.get "too_large").isTrue = false ∧ (f.get "collapsed").isTrue = false
  comments : ∃ discussions,
    Paged (gitlabPage parse answers a.host (a.root ++ "/discussions")) (k + 1) l 1 discussions ∧
    s.comments =
      ((discussions.flatMap Gitlab.discussion).filterMap Sum.getLeft?).map (Gitlab.placed t)

/-- **A snapshot is of one target.** Whatever happens to the merge request in the meantime: where no
target comes back once it is gone, the merge request has that of the snapshot from the first to the
last moment that the snapshot was read in, and the snapshot has every file that was listed then. -/
theorem gitlab_snapshot_at_target
    (hsteady : ∀ t, Set.OrdConnected {k | MergeAt parse answers a t k})
    (h : (Gitlab.snapshot hashes parse now a).run.answered answers i = (.ok s, j)) :
    ∃ t k l, i ≤ k ∧ k < l ∧ l < j ∧ MergeCaptured hashes parse answers a t s k l ∧
      (∀ q, k ≤ q → q ≤ l → MergeAt parse answers a t q) ∧
      ∃ q q', k < q ∧ q < l ∧ l < q' ∧ q' < j ∧
        gitlabAccount parse answers a.host q = .ok t.account ∧
        gitlabAccount parse answers a.host q' = .ok t.account := by
  have hrun : Between answers i j (Gitlab.snapshot hashes parse now a).run (.ok s) := by
    have hanswered := Between.of_answered (Gitlab.snapshot hashes parse now a).run answers i
    rwa [h] at hanswered
  obtain ⟨v, m₁, hv, h₁⟩ := Between.of_except_bind hrun
  obtain ⟨user, m₂, huser, h₂⟩ := Between.of_except_bind h₁
  obtain ⟨t, m₃, htarget, h₃⟩ := Between.of_except_bind h₂
  obtain ⟨htarget, hm₃⟩ := Between.of_done htarget
  obtain ⟨r, m₄, hraw, h₄⟩ := Between.of_except_bind h₃
  have hm₄ := hraw.le
  split at h₄
  · obtain ⟨_, _, hthrow, _⟩ := Between.of_except_bind h₄
    cases hthrow
  rename_i hstatus
  obtain ⟨patch, m₅, hpatch, h₅⟩ := Between.of_except_bind h₄
  obtain ⟨hpatch, hm₅⟩ := Between.of_done hpatch
  obtain ⟨files, m₆, hfiles, h₆⟩ := Between.of_except_bind h₅
  have hm₆ := hfiles.le
  split at h₆
  · obtain ⟨_, _, hthrow, _⟩ := Between.of_except_bind h₆
    cases hthrow
  rename_i hevery
  obtain ⟨discussions, m₇, hdiscussions, h₇⟩ := Between.of_except_bind h₆
  have hm₇ := hdiscussions.le
  obtain ⟨approvals, m₈, hread, h₈⟩ := Between.of_except_bind h₇
  have hm₈ := hread.le
  obtain ⟨reviewers, m₉, hread', h₉⟩ := Between.of_except_bind h₈
  have hm₉ := hread'.le
  obtain ⟨overview, m', hpipelines, h'⟩ := Between.of_except_bind h₉
  have hm' := hpipelines.le
  obtain ⟨current, m'', hcurrent, h''⟩ := Between.of_except_bind h'
  split at h''
  · obtain ⟨_, _, hthrow, _⟩ := Between.of_except_bind h''
    cases hthrow
  rename_i hsame
  rw [not_not] at hstatus hevery hsame
  subst hsame
  obtain ⟨hs, hm''⟩ := Between.of_done h''
  obtain ⟨k, hk, hk', hjson⟩ := get_between hv
  obtain ⟨q, hq, hq', hlogin⟩ := get_between huser
  obtain ⟨l, q', hl, hlq', hq'j, hstop, hlogin'⟩ := readTarget_between hcurrent
  obtain ⟨x, hx, hx', hanswer⟩ := gitlab_request_between hraw
  have hstart : MergeAt parse answers a current k := ⟨v, user, hjson, htarget⟩
  have hparsed : parsePatch hashes.sha256 r.body .default = .ok patch := ok_of_mapError hpatch
  cases hs
  refine ⟨current, k, l, hk, by omega, by omega, ?_, fun y hky hyl => ?_, q, q', by omega,
    by omega, hlq', by omega, ?_, hlogin'⟩
  · constructor
    · rfl
    · exact hstart
    · exact hstop
    · exact ⟨x, r, by omega, by omega, hanswer, hstatus, hparsed⟩
    · exact ⟨files, (gitlab_pages_between hfiles).mono (by omega) (by omega), everyFile_iff.1 hevery⟩
    · exact ⟨discussions, (gitlab_pages_between hdiscussions).mono (by omega) (by omega), rfl⟩
  · exact (hsteady current).out hstart hstop ⟨hky, hyl⟩
  · rw [gitlabAccount, hlogin]
    exact gitlab_target_account htarget

/-! ## A capture -/

def mergeAddress : Gitlab.MrAddress := ⟨"gitlab.com", "o/r", 1⟩

def mergeUser : Json := .obj [("username", .str "u")]

def mergeDocument (moved : Bool) : Json :=
  .obj [("project_id", .num 7), ("iid", .num 1), ("state", .str "opened"),
    ("diff_refs", .obj [("start_sha", .str "0000000000000000000000000000000000000000"),
      ("base_sha", .str "0000000000000000000000000000000000000000"),
      ("head_sha", .str (if moved then "2222222222222222222222222222222222222222"
        else "1111111111111111111111111111111111111111"))])]

/-- The merge request moves once the snapshot is read. Only two lists and the diff are there. -/
def mergeAnswers (k : Nat) (r : Request) : Reply :=
  if r.endpoint = "user" then .ok ⟨200, mergeUser.toVec⟩
  else if r.endpoint = mergeAddress.root then .ok ⟨200, (mergeDocument (decide (15 ≤ k))).toVec⟩
  else if r.endpoint = mergeAddress.root ++ "/raw_diffs" then .ok ⟨200, []⟩
  else if r.endpoint = pageOf (mergeAddress.root ++ "/diffs") 1 ∨
      r.endpoint = pageOf (mergeAddress.root ++ "/discussions") 1 then .ok ⟨200, (Json.arr []).toVec⟩
  else .ok ⟨404, []⟩

def mergeParse (bytes : Bytes) : Except String Json :=
  match [.arr [], mergeUser, mergeDocument false, mergeDocument true].find? fun j =>
    j.toVec = bytes with
  | some j => .ok j
  | none => .error "not a document"

def mergeRun : Except String Snapshot × Nat :=
  (Gitlab.snapshot ⟨fun _ => [], fun _ => []⟩ mergeParse 0 mergeAddress).run.answered mergeAnswers 0

theorem mergeRun_ok : mergeRun.1.isOk = true := by decide +kernel

theorem mergeAnswers_eq (h : decide (15 ≤ k) = decide (15 ≤ l)) :
    mergeAnswers k = mergeAnswers l := by
  funext r
  rw [mergeAnswers, mergeAnswers, h]

theorem mergeAt_of_eq {t : RemoteTarget} (heq : answers k = answers l)
    (h : MergeAt parse answers a t k) : MergeAt parse answers a t l := by
  obtain ⟨v, user, hjson, htarget⟩ := h
  rw [gitlabJson, heq] at hjson
  exact ⟨v, user, hjson, htarget⟩

/-- What was before the move is not after it. -/
theorem merge_steady (t : RemoteTarget) :
    Set.OrdConnected {k | MergeAt mergeParse mergeAnswers mergeAddress t k} := by
  refine ⟨fun x hx y hy z hz => ?_⟩
  obtain ⟨hxz, hzy⟩ := hz
  by_cases hmoved : 15 ≤ z
  · have hy' : decide (15 ≤ y) = decide (15 ≤ z) := by simp; omega
    exact mergeAt_of_eq (mergeAnswers_eq hy') hy
  · have hx' : decide (15 ≤ x) = decide (15 ≤ z) := by simp; omega
    exact mergeAt_of_eq (mergeAnswers_eq hx') hx

theorem gitlab_snapshot_at_sample : ∃ s t k l,
    MergeCaptured ⟨fun _ => [], fun _ => []⟩ mergeParse mergeAnswers mergeAddress t s k l ∧
      ∀ q, k ≤ q → q ≤ l → MergeAt mergeParse mergeAnswers mergeAddress t q := by
  have hok := mergeRun_ok
  generalize hrun : mergeRun = run at hok
  obtain ⟨result, j⟩ := run
  obtain ⟨s, rfl⟩ := ok_of_isOk hok
  obtain ⟨t, k, l, -, -, -, hcaptured, hall, -⟩ := gitlab_snapshot_at_target merge_steady hrun
  exact ⟨s, t, k, l, hcaptured, hall⟩

end Capture
end Proof
end Diffz
