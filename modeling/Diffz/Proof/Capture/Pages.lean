import Diffz.Adapters.Capture

/-!
# What the reads of a capture return

Each read has a rule that says what was answered when it returns something. A list is read page by
page: each page is answered at a moment of its own, and a list that is returned is complete.
-/

set_option autoImplicit false

namespace Diffz
namespace Proof
namespace Capture

open Diffz.Http Diffz.Dialogue

variable {parse : ParseJson} {answers : Nat → Request → Reply} {m n : Nat}

/-! ## Lists -/

/-- A list, from its page `i` on. `page k i items` says that at the moment `k` the page is `items`,
and only the last page is not full. -/
inductive Paged (page : Nat → Nat → List Json → Prop) (m n : Nat) : Nat → List Json → Prop
  | last {i k : Nat} {items : List Json} (hm : m ≤ k) (hn : k < n) (h : page k i items)
      (hshort : items.length < 100) : Paged page m n i items
  | more {i k : Nat} {items rest : List Json} (hm : m ≤ k) (hn : k < n) (h : page k i items)
      (hfull : 100 ≤ items.length) (hrest : Paged page m n (i + 1) rest) :
      Paged page m n i (items ++ rest)

theorem Paged.mono {page : Nat → Nat → List Json → Prop} {m' n' i : Nat} {items : List Json}
    (h : Paged page m n i items) (hm : m' ≤ m) (hn : n ≤ n') : Paged page m' n' i items := by
  induction h with
  | last hm' hn' h hshort => exact .last (hm.trans hm') (hn'.trans_le hn) h hshort
  | more hm' hn' h hfull _ ih => exact .more (hm.trans hm') (hn'.trans_le hn) h hfull ih

/-- What a page says, where every page of the list was asked for. -/
theorem Paged.imp {page page' : Nat → Nat → List Json → Prop} {i : Nat} {items : List Json}
    (h : Paged page m n i items)
    (himp : ∀ k i items, m ≤ k → k < n → page k i items → page' k i items) :
    Paged page' m n i items := by
  induction h with
  | last hm hn h hshort => exact .last hm hn (himp _ _ _ hm hn h) hshort
  | more hm hn h hfull _ ih => exact .more hm hn (himp _ _ _ hm hn h) hfull ih

variable {p : Pager} {endpoint : String} {page : Nat → Nat → List Json → Prop}

/-- The pages that are left are read behind those that were. -/
theorem loop_between
    (hask : ∀ m n i size items,
      Between answers m n (p.ask (pageOf endpoint i)) (.ok (size, .ok items)) →
        ∃ k, m ≤ k ∧ k < n ∧ page k i items)
    {left i bytes : Nat} {all result : List Json}
    (h : Between answers m n (p.loop endpoint left i bytes all).run (.ok result)) :
    ∃ rest, result = all ++ rest ∧ Paged page m n i rest := by
  induction left generalizing m i bytes all with
  | zero => cases h
  | succ left ih =>
    rw [Pager.loop] at h
    obtain ⟨⟨size, items⟩, k, hpage, h⟩ := Between.of_except_bind h
    have hkn := h.le
    dsimp only at h
    split at h
    · obtain ⟨_, _, h, _⟩ := Between.of_except_bind h
      cases h
    obtain ⟨items', k', hitems, hnext⟩ := Between.of_except_bind h
    have hk'n := hnext.le
    obtain ⟨rfl, hk'⟩ := Between.of_done hitems
    obtain ⟨l, hm, hl, hpage⟩ := hask _ _ _ _ _ hpage
    split at hnext
    · rename_i hshort
      cases hnext
      exact ⟨items', rfl, .last hm (by omega) hpage hshort⟩
    · rename_i hfull
      obtain ⟨rest, rfl, hrest⟩ := ih hnext
      refine ⟨items' ++ rest, by rw [List.append_assoc], ?_⟩
      exact .more hm (by omega) hpage (by omega) (hrest.mono (by omega) le_rfl)

theorem all_between
    (hask : ∀ m n i size items,
      Between answers m n (p.ask (pageOf endpoint i)) (.ok (size, .ok items)) →
        ∃ k, m ≤ k ∧ k < n ∧ page k i items)
    {result : List Json} (h : Between answers m n (p.all endpoint).run (.ok result)) :
    Paged page m n 1 result := by
  obtain ⟨rest, rfl, hrest⟩ := loop_between hask h
  exact hrest

/-! ## GitHub -/

section

variable {host : String} {v : Json}

/-- A read of GitHub, as the server gets it. -/
def githubRead (host endpoint accept : String) : Request := ⟨host, endpoint, "GET", some accept, none⟩

/-- What a read of JSON returns at a moment. -/
def githubJson (parse : ParseJson) (answers : Nat → Request → Reply) (host endpoint : String)
    (k : Nat) : Except String Json :=
  Github.jsonReply parse (answers k (githubRead host endpoint Github.acceptJson))

theorem github_request_between {accept : String} {r : Response}
    (h : Between answers m n (Github.request host endpoint "GET" none accept) (.ok r)) :
    ∃ k, m ≤ k ∧ k < n ∧ answers k (githubRead host endpoint accept) = .ok r := by
  unfold Github.request at h
  split at h
  · cases h
  · obtain ⟨k, hm, hn, h⟩ := Between.of_ask h
    exact ⟨k, hm, hn, h.symm⟩

theorem getJson_between (h : Between answers m n (Github.getJson parse host endpoint) (.ok v)) :
    ∃ k, m ≤ k ∧ k < n ∧ githubJson parse answers host endpoint k = .ok v := by
  obtain ⟨r, k, hr, h⟩ := Between.of_bind h
  obtain ⟨hv, hk⟩ := Between.of_done h
  cases r with
  | error e => cases hv
  | ok r =>
    obtain ⟨l, hm, hl, hanswer⟩ := github_request_between hr
    exact ⟨l, hm, by omega, by rw [githubJson, hanswer, hv]⟩

/-- A page of a list, as GitHub answers it at a moment. -/
def githubPage (parse : ParseJson) (answers : Nat → Request → Reply) (host endpoint : String)
    (k i : Nat) (items : List Json) : Prop :=
  githubJson parse answers host (pageOf endpoint i) k = .ok (.arr items)

theorem github_pages_between {items : List Json}
    (h : Between answers m n (Github.pages parse host endpoint).run (.ok items)) :
    Paged (githubPage parse answers host endpoint) m n 1 items := by
  refine all_between (fun m n i size items h => ?_) h
  obtain ⟨v, k, hv, h⟩ := Between.of_bind h
  have hk := h.le
  cases v with
  | error e => cases h
  | ok v =>
    obtain ⟨l, hm, hl, hv⟩ := getJson_between hv
    refine ⟨l, hm, by omega, ?_⟩
    cases v with
    | arr items' =>
      cases h
      exact hv
    | null | bool | num | float | str | obj => cases h

/-- The account at a moment. -/
def githubAccount (parse : ParseJson) (answers : Nat → Request → Reply) (host : String) (k : Nat) :
    Except String String :=
  (githubJson parse answers host "user" k).bind fun v => Github.text v ["login"]

theorem account_between {account : String}
    (h : Between answers m n (Github.account parse host) (.ok account)) :
    ∃ k, m ≤ k ∧ k < n ∧ githubAccount parse answers host k = .ok account := by
  obtain ⟨v, k, hv, h⟩ := Between.of_bind h
  have hk := h.le
  cases v with
  | error e => cases h
  | ok v =>
    obtain ⟨l, hm, hl, hv⟩ := getJson_between hv
    refine ⟨l, hm, by omega, ?_⟩
    rw [githubAccount, hv]
    exact (Between.of_done h).1

end

/-! ## GitLab -/

section

variable {a : Gitlab.MrAddress} {path : String} {v : Json}

/-- A read of GitLab, as the server gets it. -/
def gitlabRead (host path : String) : Request := ⟨host, path, "GET", none, none⟩

/-- What `GitlabReader::get` returns at a moment. -/
def gitlabJson (parse : ParseJson) (answers : Nat → Request → Reply) (host path : String) (k : Nat) :
    Except String Json :=
  match answers k (gitlabRead host path) with
  | .error e => .error e
  | .ok r =>
    if r.status ≠ 200 then .error ("GitLab read returned HTTP " ++ toString r.status)
    else (parse r.body).mapError Gitlab.jsonError

theorem gitlab_request_between {r : Response}
    (h : Between answers m n (Gitlab.request a path "GET" none) (.ok r)) :
    ∃ k, m ≤ k ∧ k < n ∧ answers k (gitlabRead a.host path) = .ok r := by
  obtain ⟨k, hm, hn, h⟩ := Between.of_ask h
  exact ⟨k, hm, hn, h.symm⟩

theorem get_between (h : Between answers m n (Gitlab.get parse a path) (.ok v)) :
    ∃ k, m ≤ k ∧ k < n ∧ gitlabJson parse answers a.host path k = .ok v := by
  obtain ⟨r, k, hr, h⟩ := Between.of_bind h
  have hk := h.le
  cases r with
  | error e => cases h
  | ok r =>
    obtain ⟨l, hm, hl, hanswer⟩ := gitlab_request_between hr
    refine ⟨l, hm, by omega, ?_⟩
    rw [gitlabJson, hanswer]
    dsimp only at h ⊢
    split at h
    · cases h
    · rename_i hstatus
      rw [if_neg hstatus]
      exact (Between.of_done h).1

/-- A page of a list, as GitLab answers it at a moment. -/
def gitlabPage (parse : ParseJson) (answers : Nat → Request → Reply) (host path : String)
    (k i : Nat) (items : List Json) : Prop :=
  ∃ r, answers k (gitlabRead host (pageOf path i)) = .ok r ∧ r.status = 200 ∧
    parse r.body = .ok (.arr items)

theorem gitlab_pages_between {items : List Json}
    (h : Between answers m n (Gitlab.pages parse a path).run (.ok items)) :
    Paged (gitlabPage parse answers a.host path) m n 1 items := by
  refine all_between (fun m n i size items h => ?_) h
  obtain ⟨r, k, hr, h⟩ := Between.of_bind h
  have hk := h.le
  cases r with
  | error e => cases h
  | ok r =>
    obtain ⟨l, hm, hl, hanswer⟩ := gitlab_request_between hr
    refine ⟨l, hm, by omega, r, hanswer, ?_⟩
    have hreply := (Between.of_done h).1
    rw [Gitlab.pageReply] at hreply
    split at hreply
    · cases hreply
    · rename_i hstatus
      refine ⟨not_not.1 hstatus, ?_⟩
      cases hparse : parse r.body with
      | error e =>
        rw [hparse] at hreply
        cases hreply
      | ok v =>
        rw [hparse] at hreply
        cases v with
        | arr items' =>
          cases hreply
          rfl
        | null | bool | num | float | str | obj => cases hreply

end

end Capture
end Proof
end Diffz
