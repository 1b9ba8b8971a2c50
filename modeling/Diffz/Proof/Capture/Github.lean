import Mathlib.Order.Interval.Set.OrdConnected
import Diffz.Lib.Fallible
import Diffz.Proof.Capture.Pages

/-!
# A snapshot of a pull request is of one head

The pull request may move while it is captured. An attempt is kept only where its base and head are
the same before and after it, and where these do not come back once they are gone, they are the same
all the time: so everything that was read between belongs to them.
-/

set_option autoImplicit false

namespace Diffz
namespace Proof
namespace Capture

open Diffz.Http Diffz.Dialogue

variable {hashes : Hashes} {parse : ParseJson} {now : Nat} {order : Nat → Nat → List Bool}
  {a : Github.PrAddress} {answers : Nat → Request → Reply} {i j k l m n : Nat} {s : Snapshot}

/-! ## The parts -/

/-- The base and the head of the pull request at a moment. -/
def PullAt (parse : ParseJson) (answers : Nat → Request → Reply) (a : Github.PrAddress)
    (base head : String) (k : Nat) : Prop :=
  ∃ v, githubJson parse answers a.host a.root k = .ok v ∧ Github.oid v ["base", "sha"] = .ok base ∧
    Github.oid v ["head", "sha"] = .ok head

/-- The endpoint that has the merge base. -/
def compareEndpoint (a : Github.PrAddress) (base head : String) : String :=
  "repos/" ++ a.owner ++ "/" ++ a.repo ++ "/compare/" ++ base ++ "..." ++ head

/-- The snapshot, with its target `t`, was read from the moment `m` on and before the moment `n`. -/
structure Whole (hashes : Hashes) (parse : ParseJson) (answers : Nat → Request → Reply)
    (a : Github.PrAddress) (t : RemoteTarget) (s : Snapshot) (m n : Nat) : Prop where
  patch : ∃ k raw files body, m ≤ k ∧ k < n ∧
    answers k (githubRead a.host a.root Github.acceptDiff) = .ok raw ∧
    Paged (githubPage parse answers a.host (a.root ++ "/files")) m n 1 files ∧
    Github.diffBody raw files = .ok body ∧ parsePatch hashes.sha256 body .default = .ok s.patch
  comments : ∃ comments,
    Paged (githubPage parse answers a.host (a.root ++ "/comments")) m n 1 comments ∧
    comments.mapM Github.thread = .ok s.comments
  mergeBase : ∃ k v, m ≤ k ∧ k < n ∧
    githubJson parse answers a.host (compareEndpoint a t.targetTip t.head) k = .ok v ∧
    Github.oid v ["merge_base_commit", "sha"] = .ok t.comparisonBase
  pending : ∃ reviews,
    Paged (githubPage parse answers a.host (a.root ++ "/reviews")) m n 1 reviews ∧
    t.pendingReview = reviews.any fun r =>
      (r.get "state").isStr "PENDING" && ((r.get "user").get "login").isStr t.account

/-- What the threads of the large scope return was answered in their time. -/
structure PartsBetween (parse : ParseJson) (answers : Nat → Request → Reply) (a : Github.PrAddress)
    (base head : String) (m n : Nat) (p : Github.Parts) : Prop where
  compare : ∀ v, p.compare = .ok v → ∃ k, m ≤ k ∧ k < n ∧
    githubJson parse answers a.host (compareEndpoint a base head) k = .ok v
  files : ∀ items, p.files = .ok items →
    Paged (githubPage parse answers a.host (a.root ++ "/files")) m n 1 items
  raw : ∀ r, p.raw = .ok r → ∃ k, m ≤ k ∧ k < n ∧
    answers k (githubRead a.host a.root Github.acceptDiff) = .ok r
  comments : ∀ items, p.comments = .ok items →
    Paged (githubPage parse answers a.host (a.root ++ "/comments")) m n 1 items
  reviews : ∀ items, p.reviews = .ok items →
    Paged (githubPage parse answers a.host (a.root ++ "/reviews")) m n 1 items

theorem parts_between {v : Json} {base head : String} {p : Github.Parts} {o : Nat → List Bool}
    (h : Between answers m n (Github.parts parse now o a v base head) p) :
    PartsBetween parse answers a base head m n p := by
  obtain ⟨⟨compare, files, raw, comments, reviews, overview⟩, k, hparts, h⟩ := Between.of_bind h
  have hk := h.le
  obtain ⟨hcompare, hparts⟩ := Between.of_turns hparts
  obtain ⟨hfiles, hparts⟩ := Between.of_turns hparts
  obtain ⟨hraw, hparts⟩ := Between.of_turns hparts
  obtain ⟨hcomments, hparts⟩ := Between.of_turns hparts
  obtain ⟨hreviews, -⟩ := Between.of_turns hparts
  cases h
  constructor
  · rintro v rfl
    exact getJson_between (hcompare.mono le_rfl hk)
  · rintro items rfl
    exact github_pages_between (hfiles.mono le_rfl hk)
  · rintro r rfl
    exact github_request_between (hraw.mono le_rfl hk)
  · rintro items rfl
    exact github_pages_between (hcomments.mono le_rfl hk)
  · rintro items rfl
    exact github_pages_between (hreviews.mono le_rfl hk)

theorem target_ok {v : Json} {account comparisonBase : String} {t : RemoteTarget}
    (h : Github.target a v account comparisonBase = .ok t) :
    t.account = account ∧ t.comparisonBase = comparisonBase ∧
      Github.oid v ["base", "sha"] = .ok t.targetTip ∧ Github.oid v ["head", "sha"] = .ok t.head := by
  unfold Github.target at h
  obtain ⟨owner, -, h⟩ := ok_of_bind h
  obtain ⟨name, -, h⟩ := ok_of_bind h
  split at h
  · cases h
  · obtain ⟨id, -, h⟩ := ok_of_bind h
    obtain ⟨targetTip, hbase, h⟩ := ok_of_bind h
    obtain ⟨head, hhead, h⟩ := ok_of_bind h
    cases h
    exact ⟨rfl, rfl, hbase, hhead⟩

theorem PartsBetween.mono {base head : String} {p : Github.Parts}
    (h : PartsBetween parse answers a base head m n p) (hm : k ≤ m) (hn : n ≤ l) :
    PartsBetween parse answers a base head k l p where
  compare v hv := by
    obtain ⟨q, hq, hqn, hjson⟩ := h.compare v hv
    exact ⟨q, hm.trans hq, hqn.trans_le hn, hjson⟩
  files items hitems := (h.files items hitems).mono hm hn
  raw r hr := by
    obtain ⟨q, hq, hqn, hanswer⟩ := h.raw r hr
    exact ⟨q, hm.trans hq, hqn.trans_le hn, hanswer⟩
  comments items hitems := (h.comments items hitems).mono hm hn
  reviews items hitems := (h.reviews items hitems).mono hm hn

/-- What is gathered is what the threads return. -/
theorem gather_ok {v : Json} {account : String} {p : Github.Parts} {g : Github.Gathered}
    (h : Github.gather hashes a v account p = .ok g) :
    ∃ compare t raw body, p.compare = .ok compare ∧
      Github.oid compare ["merge_base_commit", "sha"] = .ok t.comparisonBase ∧
      Github.target a v account t.comparisonBase = .ok t ∧ p.files = .ok g.files ∧
      p.raw = .ok raw ∧ Github.diffBody raw g.files = .ok body ∧
      parsePatch hashes.sha256 body .default = .ok g.patch ∧ p.comments = .ok g.comments ∧
      p.reviews = .ok g.reviews ∧
      g.remote = { t with pendingReview := g.reviews.any fun r =>
        (r.get "state").isStr "PENDING" && ((r.get "user").get "login").isStr account } := by
  unfold Github.gather at h
  obtain ⟨compare, hcompare, h⟩ := ok_of_bind h
  obtain ⟨mergeBase, hmergeBase, h⟩ := ok_of_bind h
  obtain ⟨t, ht, h⟩ := ok_of_bind h
  obtain ⟨files, hfiles, h⟩ := ok_of_bind h
  obtain ⟨raw, hraw, h⟩ := ok_of_bind h
  obtain ⟨body, hbody, h⟩ := ok_of_bind h
  obtain ⟨patch, hpatch, h⟩ := ok_of_bind h
  obtain ⟨comments, hcomments, h⟩ := ok_of_bind h
  obtain ⟨reviews, hreviews, h⟩ := ok_of_bind h
  cases h
  have hbase := (target_ok ht).2.1
  subst hbase
  exact ⟨compare, t, raw, body, hcompare, hmergeBase, ht, hfiles, hraw, hbody, ok_of_mapError hpatch,
    hcomments, hreviews, rfl⟩

/-- What is kept of an attempt. -/
theorem finish_ok {account : String} {g : Github.Gathered} {after : Json}
    {still : Except String String} (h : Github.finish hashes a account g after still = .ok s) :
    still = .ok account ∧ s.patch = g.patch ∧ g.comments.mapM Github.thread = .ok s.comments ∧
      s.remote = some { g.remote with
        isOpen := (after.get "state").isStr "open", draft := (after.get "draft").isTrue
        merged := Github.isMerged after } := by
  unfold Github.finish at h
  obtain ⟨login, hstill, h⟩ := ok_of_bind h
  split at h
  · cases h
  · rename_i haccount
    obtain ⟨title, -, h⟩ := ok_of_bind h
    obtain ⟨comments, hcomments, h⟩ := ok_of_bind h
    obtain ⟨expected, -, h⟩ := ok_of_bind h
    cases h
    rw [not_not.1 haccount] at hstill
    exact ⟨hstill, rfl, hcomments, rfl⟩

/-! ## The attempts -/

/-- The state of the pull request at a moment. -/
def StateAt (parse : ParseJson) (answers : Nat → Request → Reply) (a : Github.PrAddress)
    (t : RemoteTarget) (k : Nat) : Prop :=
  ∃ v, githubJson parse answers a.host a.root k = .ok v ∧ t.isOpen = (v.get "state").isStr "open" ∧
    t.draft = (v.get "draft").isTrue ∧ t.merged = Github.isMerged v

/-- A snapshot that was captured with its target `t`, from the metadata at the moment `k` on and up
to the metadata at the moment `l`. -/
structure Captured (hashes : Hashes) (parse : ParseJson) (answers : Nat → Request → Reply)
    (a : Github.PrAddress) (t : RemoteTarget) (s : Snapshot) (k l : Nat) : Prop where
  remote : s.remote = some t
  start : PullAt parse answers a t.targetTip t.head k
  stop : PullAt parse answers a t.targetTip t.head l
  whole : Whole hashes parse answers a t s (k + 1) l
  state : StateAt parse answers a t l

theorem attempt_between {v after : Json} {base head account : String} {p : Github.Parts}
    {g : Github.Gathered} {still : Except String String}
    (hbefore : githubJson parse answers a.host a.root k = .ok v)
    (hbase : Github.oid v ["base", "sha"] = .ok base)
    (hhead : Github.oid v ["head", "sha"] = .ok head)
    (hparts : PartsBetween parse answers a base head (k + 1) l p)
    (hgather : Github.gather hashes a v account p = .ok g)
    (hafter : githubJson parse answers a.host a.root l = .ok after)
    (hbase' : Github.oid after ["base", "sha"] = .ok base)
    (hhead' : Github.oid after ["head", "sha"] = .ok head)
    (hfinish : Github.finish hashes a account g after still = .ok s) :
    ∃ t, Captured hashes parse answers a t s k l ∧ t.account = account := by
  obtain ⟨compare, t, raw, body, hcompare, hmergeBase, ht, hfiles, hraw, hbody, hparsed, hcomments,
    hreviews, hg⟩ := gather_ok hgather
  obtain ⟨haccount, -, htip, hthead⟩ := target_ok ht
  obtain ⟨-, hpatch, hthreads, hremote⟩ := finish_ok hfinish
  have htip : t.targetTip = base := Except.ok.inj (htip.symm.trans hbase)
  have hthead : t.head = head := Except.ok.inj (hthead.symm.trans hhead)
  subst htip hthead
  rw [hg] at hremote
  refine ⟨_, ⟨hremote, ⟨v, hbefore, hbase, hhead⟩, ⟨after, hafter, hbase', hhead'⟩, ?_,
    ⟨after, hafter, rfl, rfl, rfl⟩⟩, haccount⟩
  obtain ⟨q, hq, hql, hanswer⟩ := hparts.raw raw hraw
  obtain ⟨q', hq', hql', hjson⟩ := hparts.compare compare hcompare
  constructor
  · exact ⟨q, raw, g.files, body, hq, hql, hanswer, hparts.files _ hfiles, hbody, hpatch ▸ hparsed⟩
  · exact ⟨g.comments, hparts.comments _ hcomments, hthreads⟩
  · exact ⟨q', compare, hq', hql', hjson, hmergeBase⟩
  · refine ⟨g.reviews, hparts.reviews _ hreviews, ?_⟩
    rw [haccount]

theorem metadata_between {first : Option Json} {v : Json} (him : i ≤ m)
    (hfirst : ∀ v ∈ first, ∃ k, i ≤ k ∧ k < m ∧ githubJson parse answers a.host a.root k = .ok v)
    (h : Between answers m n (Github.metadata parse a first).run (.ok v)) :
    ∃ k, i ≤ k ∧ k < n ∧ githubJson parse answers a.host a.root k = .ok v := by
  have hm := h.le
  cases first with
  | some v' =>
    cases h
    obtain ⟨k, hi, hk, hjson⟩ := hfirst v rfl
    exact ⟨k, hi, hk.trans_le hm, hjson⟩
  | none =>
    obtain ⟨k, hk, hk', hjson⟩ := getJson_between h
    exact ⟨k, him.trans hk, hk', hjson⟩

/-- The last attempt is kept whole; those before it leave nothing. -/
theorem attempts_between {account : String} {left : Nat} {first : Option Json} (him : i ≤ m)
    (hfirst : ∀ v ∈ first, ∃ k, i ≤ k ∧ k < m ∧ githubJson parse answers a.host a.root k = .ok v)
    (h : Between answers m n (Github.attempts hashes parse now order a account left first).run
      (.ok s)) :
    ∃ t k l q, i ≤ k ∧ k < l ∧ l < n ∧ Captured hashes parse answers a t s k l ∧
      t.account = account ∧ m ≤ q ∧ q < n ∧ githubAccount parse answers a.host q = .ok account := by
  induction left generalizing m first with
  | zero => cases h
  | succ left ih =>
    rw [Github.attempts] at h
    obtain ⟨v, m₁, hv, h₁⟩ := Between.of_except_bind h
    have hm₁ := hv.le
    obtain ⟨base, m₂, hbase, h₂⟩ := Between.of_except_bind h₁
    obtain ⟨hbase, hm₂⟩ := Between.of_done hbase
    obtain ⟨head, m₃, hhead, h₃⟩ := Between.of_except_bind h₂
    obtain ⟨hhead, hm₃⟩ := Between.of_done hhead
    obtain ⟨p, m₄, hparts, h₄⟩ := Between.of_except_bind h₃
    have hm₄ := hparts.le
    obtain ⟨g, m₅, hgather, h₅⟩ := Between.of_except_bind h₄
    obtain ⟨hgather, hm₅⟩ := Between.of_done hgather
    obtain ⟨⟨after, still⟩, m₆, hscope, h₆⟩ := Between.of_except_bind h₅
    have hm₆ := hscope.le
    obtain ⟨hafter, hstill⟩ := Between.of_turns (Between.of_lift hscope)
    obtain ⟨after', m₇, hok, h₇⟩ := Between.of_except_bind h₆
    obtain ⟨rfl, hm₇⟩ := Between.of_done hok
    obtain ⟨base', m₈, hbase', h₈⟩ := Between.of_except_bind h₇
    obtain ⟨hbase', hm₈⟩ := Between.of_done hbase'
    obtain ⟨head', m₉, hhead', h₉⟩ := Between.of_except_bind h₈
    obtain ⟨hhead', hm₉⟩ := Between.of_done hhead'
    split at h₉
    · -- The pull request moved, and the next attempt begins.
      obtain ⟨t, k', l, q, hk', hl, hn, hcaptured, haccount, hq, hqn, hlogin⟩ :=
        ih (by omega) (by simp) h₉
      exact ⟨t, k', l, q, hk', hl, hn, hcaptured, haccount, by omega, hqn, hlogin⟩
    · rename_i hsame
      obtain ⟨k, hik, hkm₁, hbefore⟩ := metadata_between him hfirst hv
      obtain ⟨hfinish, hm₁₀⟩ := Between.of_done h₉
      obtain ⟨l, hl, hln, hafter⟩ := getJson_between hafter
      rw [(finish_ok hfinish).1] at hstill
      obtain ⟨q, hq, hqn, hlogin⟩ := account_between hstill
      simp only [not_or, not_not] at hsame
      obtain ⟨rfl, rfl, -⟩ := hsame
      have hparts : PartsBetween parse answers a base head (k + 1) l p :=
        (parts_between (Between.of_lift hparts)).mono (by omega) (by omega)
      obtain ⟨t, hcaptured, haccount⟩ := attempt_between hbefore hbase hhead hparts hgather hafter
        hbase' hhead' hfinish
      exact ⟨t, k, l, q, hik, by omega, by omega, hcaptured, haccount, by omega, by omega, hlogin⟩

def sampleHead (moved : Bool) : String :=
  if moved then "2222222222222222222222222222222222222222"
  else "1111111111111111111111111111111111111111"

def sampleBase : String := "0000000000000000000000000000000000000000"

def sampleUser : Json := .obj [("login", .str "u")]

def samplePull (moved : Bool) : Json :=
  .obj [("title", .str "t"), ("state", .str "open"), ("changed_files", .num 0),
    ("head", .obj [("sha", .str (sampleHead moved))]),
    ("base", .obj [("sha", .str sampleBase), ("repo", .obj [("id", .num 7), ("name", .str "r"),
      ("owner", .obj [("login", .str "o")])])])]

def sampleCompare : Json := .obj [("merge_base_commit", .obj [("sha", .str sampleBase)])]

/-- The documents of the server. Everything else is missing. -/
def sampleDocument (moved : Bool) (endpoint : String) : Option Json :=
  if endpoint = "user" then some sampleUser
  else if endpoint = "repos/o/r/pulls/1" then some (samplePull moved)
  else if startsWith endpoint.toList "repos/o/r/compare/" then some sampleCompare
  else if startsWith endpoint.toList "repos/o/r/pulls/1/" then some (.arr [])
  else none

/-- The head moves once the snapshot is read. -/
def sampleAnswers (k : Nat) (r : Request) : Reply :=
  if r.accept = some Github.acceptDiff then .ok ⟨200, []⟩
  else match sampleDocument (decide (15 ≤ k)) r.endpoint with
    | some j => .ok ⟨200, j.toVec⟩
    | none => .ok ⟨404, []⟩

/-- The reader of JSON text, for these documents. -/
def sampleParse (bytes : Bytes) : Except String Json :=
  match [.arr [], sampleUser, sampleCompare, samplePull false, samplePull true].find? fun j =>
    j.toVec = bytes with
  | some j => .ok j
  | none => .error "not a document"

def sampleHashes : Hashes := ⟨fun _ => [], fun _ => []⟩

def sampleAddress : Github.PrAddress := ⟨"github.com", "o", "r", 1⟩

def sampleRun : Except String Snapshot × Nat :=
  (Github.snapshot sampleHashes sampleParse 0 (fun _ _ => []) sampleAddress).run.answered
    sampleAnswers 0

theorem sampleRun_ok : sampleRun.1.isOk = true := by decide +kernel

theorem sampleAnswers_eq (h : decide (15 ≤ k) = decide (15 ≤ l)) :
    sampleAnswers k = sampleAnswers l := by
  funext r
  rw [sampleAnswers, sampleAnswers, h]

theorem pullAt_of_eq {base head : String} (heq : answers k = answers l)
    (h : PullAt parse answers a base head k) : PullAt parse answers a base head l := by
  obtain ⟨v, hjson, hshas⟩ := h
  rw [githubJson, heq] at hjson
  exact ⟨v, hjson, hshas⟩

/-- What was before the move is not after it. -/
theorem sample_steady (base head : String) :
    Set.OrdConnected {k | PullAt sampleParse sampleAnswers sampleAddress base head k} := by
  refine ⟨fun x hx y hy z hz => ?_⟩
  obtain ⟨hxz, hzy⟩ := hz
  by_cases hmoved : 15 ≤ z
  · have hy' : decide (15 ≤ y) = decide (15 ≤ z) := by simp; omega
    exact pullAt_of_eq (sampleAnswers_eq hy') hy
  · have hx' : decide (15 ≤ x) = decide (15 ≤ z) := by simp; omega
    exact pullAt_of_eq (sampleAnswers_eq hx') hx

end Capture
end Proof
end Diffz
