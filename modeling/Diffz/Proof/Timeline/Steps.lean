import Diffz.Adapters.Releases
import Diffz.Lib.Orbit

/-!
# Release steps form one chain

The walk follows the first parents to the end of the range, or until it has seen more commits than
the range lists; either way the commits it visits are the path to the head. A repeated commit has
its last position, so the positions of the path are in its order, and so are the tags.
-/

set_option autoImplicit false

namespace Diffz.Proof.Timeline

open Diffz.Releases

/-! ## The path -/

/-- The commits on the way back from the head along the first parents, oldest first, as long as they
are in the range and not on the way already. -/
structure FirstParents (range : List (String × Option String)) (head : String)
    (path : List String) : Prop where
  nodup : path.Nodup
  head : path.getLast? = if head ∈ range.map (·.1) then some head else none
  parent : path.IsChain fun c d => (d, some c) ∈ range
  inRange : ∀ c ∈ path, c ∈ range.map (·.1)
  ends : ∀ c ∈ path.head?, ∀ p, (c, some p) ∈ range → p ∈ range.map (·.1) → p ∈ path

theorem FirstParents.getLast {range : List (String × Option String)} {head : String}
    {path : List String} (h : FirstParents range head path) (hne : path ≠ []) :
    path.getLast? = some head := by
  have hhead := h.head
  rw [List.getLast?_eq_some_getLast hne] at hhead ⊢
  split at hhead
  · exact hhead
  · cases hhead

/-- The first parent of a commit, where it is in the range. -/
def nextOf (parents : Table String (Option String)) (c : String) : Option String :=
  (parents.find c).join.filter fun p => (parents.find p).isSome

variable {parents : Table String (Option String)} {limit : Nat} {path : List String} {sha : String}
  {range : List (String × Option String)}

/-- The loop follows the first parents, and stops where there is none or at its limit. -/
theorem walk_follows (hsha : (parents.find sha).isSome = true) :
    ∃ more, Releases.walk parents limit path sha = some (path ++ sha :: more) ∧
      Follows (nextOf parents) (sha :: more) ∧
      (∀ c ∈ sha :: more, (parents.find c).isSome = true) ∧
      ∀ c ∈ (sha :: more).getLast?, nextOf parents c = none ∨
        limit < path.length + (sha :: more).length := by
  fun_induction Releases.walk parents limit path sha with
  | case1 path sha hfind =>
    rw [hfind] at hsha
    cases hsha
  | case2 path sha hfind =>
    refine ⟨[], rfl, List.isChain_singleton _, by simpa using hsha, ?_⟩
    simp [nextOf, hfind]
  | case3 path sha p hgo hfind ih =>
    obtain ⟨more, hwalk, hfollows, hin, hend⟩ := ih hgo.1
    have hnext : nextOf parents sha = some p := by
      simp [nextOf, hfind, Option.filter, hgo.1]
    refine ⟨p :: more, by rw [hwalk]; simp, List.isChain_cons_cons.mpr ⟨hnext, hfollows⟩, ?_, ?_⟩
    · exact List.forall_mem_cons.mpr ⟨hsha, hin⟩
    · intro c hc
      rw [List.getLast?_cons_cons] at hc
      refine (hend c hc).imp_right fun hlt => ?_
      simp only [List.length_append, List.length_cons, List.length_nil] at hlt ⊢
      omega
  | case4 path sha p hstop hfind =>
    refine ⟨[], rfl, List.isChain_singleton _, by simpa using hsha, ?_⟩
    intro c hc
    obtain rfl : sha = c := Option.some.inj hc
    by_cases hp : (parents.find p).isSome = true
    · refine .inr ?_
      simp only [hp, true_and] at hstop
      simp only [List.length_cons, List.length_nil]
      omega
    · exact .inl (by simp [nextOf, hfind, Option.filter, hp])

theorem nextOf_eq_some_iff (hrange : (range.map (·.1)).Nodup) {c p : String} :
    nextOf (Table.ofList range) c = some p ↔ (c, some p) ∈ range ∧ p ∈ range.map (·.1) := by
  rw [nextOf, Option.filter_eq_some_iff, Table.find_ofList_isSome, Option.join_eq_some_iff,
    Table.find_ofList_iff hrange]

/-- What is walked is the path to the head, and before it only commits of the path. -/
theorem exists_pathTo (hrange : (range.map (·.1)).Nodup) (head : String) :
    ∃ loop path, pathTo range head = some (loop ++ path) ∧ (∀ c ∈ loop, c ∈ path) ∧
      FirstParents range head path := by
  unfold pathTo
  by_cases hhead : ((Table.ofList range).find head).isSome = true
  · obtain ⟨more, hwalk, hfollows, hin, hend⟩ :=
      @walk_follows (Table.ofList range) range.length [] head hhead
    simp only [Table.find_ofList_isSome] at hin
    obtain ⟨visited, rest, hsplit, hnodup, hrest, hclosed⟩ := hfollows.exists_visited
    have hvisited : ∀ c ∈ visited, c ∈ range.map (·.1) := fun c hc => hin c (by simp [hsplit, hc])
    have hchain : Follows (nextOf (Table.ofList range)) visited := by
      rw [hsplit] at hfollows
      exact (List.isChain_append.mp hfollows).1
    refine ⟨rest.reverse, visited.reverse, ?_, by simpa using hrest, ?_⟩
    · simp only [hhead, if_true, hwalk, List.nil_append, Option.map_some, hsplit,
        List.reverse_append]
    · have hhead' : visited.head? = some head := by
        cases visited with
        | nil =>
          rw [List.nil_append] at hsplit
          exact absurd (hrest head (hsplit ▸ List.mem_cons_self ..)) (by simp)
        | cons c visited => exact congrArg some (List.cons_eq_cons.mp hsplit).1.symm
      refine ⟨List.nodup_reverse.mpr hnodup, ?_, ?_, by simpa using hvisited, ?_⟩
      · rw [List.getLast?_reverse, hhead', if_pos ((Table.find_ofList_isSome _ _).mp hhead)]
      · exact List.isChain_reverse.mpr
          (hchain.imp fun c p hnext => ((nextOf_eq_some_iff hrange).mp hnext).1)
      · intro c hc p hp hmem
        rw [List.head?_reverse] at hc
        have hnext := (nextOf_eq_some_iff hrange).mpr ⟨hp, hmem⟩
        rw [List.mem_reverse]
        rcases hclosed with rfl | hclosed
        · -- The path is no longer than the range, so the walk did not stop at its limit.
          rw [hsplit, List.append_nil] at hend
          have hlen : visited.length ≤ range.length := by
            have hsub := (List.subperm_of_subset hnodup hvisited).length_le
            rwa [List.length_map] at hsub
          rcases hend c hc with hnone | hlimit
          · rw [hnone] at hnext
            cases hnext
          · rw [List.length_nil] at hlimit
            omega
        · exact hclosed c (List.mem_of_getLast? hc) p hnext
  · refine ⟨[], [], by simp [hhead], nofun, .nil, ?_, .nil, nofun, nofun⟩
    rw [Table.find_ofList_isSome] at hhead
    rw [if_neg hhead]
    rfl

/-! ## Tags -/

/-- The tag of a commit: the first listed that is released, or else the first listed. -/
def chosen (released names : List String) : Option String :=
  (names.find? fun name => decide (name ∈ released)).or names.head?

/-- The names of the tags that a condition on their commits holds of. -/
def namesOf (tags : List (String × String)) (p : String → Bool) : List String :=
  (tags.filter fun tag => p tag.2).map (·.1)

/-- The tag of the commit `c`. -/
def tagOf (tags : List (String × String)) (released : List String) (c : String) : Option String :=
  chosen released (namesOf tags fun sha => decide (sha = c))

/-- A further tag replaces the one before where it alone is released. -/
theorem chosen_concat (released names : List String) (name : String) :
    chosen released (names ++ [name]) =
      match chosen released names with
      | some kept => if kept ∈ released ∨ name ∉ released then some kept else some name
      | none => some name := by
  cases hfind : names.find? fun name => decide (name ∈ released) with
  | some kept =>
    have hkept : kept ∈ released := by simpa using List.find?_some hfind
    simp [chosen, hfind, hkept]
  | none =>
    have hnone : ∀ kept ∈ names, kept ∉ released := by simpa using hfind
    by_cases hname : name ∈ released
    · cases names with
      | nil => simp [chosen, hname]
      | cons kept names =>
        have hkept := hnone kept (List.mem_cons_self ..)
        simp only [chosen, List.find?_append, hfind, Option.none_or, List.head?_cons]
        simp [hkept, hname]
    · cases names with
      | nil => simp [chosen, hname]
      | cons kept names =>
        simp only [chosen, List.find?_append, hfind, Option.none_or, List.head?_cons]
        simp [hname]

/-- What the loop over the tags has placed at a position. -/
theorem find_place (position : Table String Nat) (released : List String)
    (tags : List (String × String)) (i : Nat) :
    (tags.foldl (place position released) ∅).find i =
      chosen released (namesOf tags fun sha => decide (position.find sha = some i)) := by
  induction tags using List.reverseRecOn with
  | nil => rfl
  | append_singleton tags tag ih =>
    have hnames : namesOf (tags ++ [tag]) (fun sha => decide (position.find sha = some i)) =
        namesOf tags (fun sha => decide (position.find sha = some i)) ++
          if position.find tag.2 = some i then [tag.1] else [] := by
      rw [namesOf, namesOf, List.filter_append, List.map_append, List.filter_singleton]
      by_cases hi : position.find tag.2 = some i
      · simp [hi]
      · simp [hi]
    rw [List.foldl_append, List.foldl_cons, List.foldl_nil, hnames, place]
    cases hposition : position.find tag.2 with
    | none => simp [ih]
    | some j =>
      dsimp only
      by_cases hij : j = i
      · subst hij
        rw [if_pos rfl, chosen_concat, ← ih]
        cases hkept : (tags.foldl (place position released) ∅).find j with
        | none => exact Table.find_put_self ..
        | some kept =>
          dsimp only
          split
          · exact hkept
          · exact Table.find_put_self ..
      · have hne : ∀ name, ((tags.foldl (place position released) ∅).put j name).find i =
            (tags.foldl (place position released) ∅).find i := fun name =>
          Table.find_put_ne name (Ne.symm hij)
        rw [if_neg (by simpa using hij), List.append_nil, ← ih]
        cases (tags.foldl (place position released) ∅).find j with
        | none => exact hne tag.1
        | some kept =>
          dsimp only
          split
          · rfl
          · exact hne tag.1

/-! ## Positions -/

/-- The position of an element is its last one. -/
theorem find_zipIdx (l : List String) (c : String) (i : Nat) :
    (Table.ofList l.zipIdx).find c = some i ↔
      l[i]? = some c ∧ ∀ j, i < j → l[j]? ≠ some c := by
  induction l using List.reverseRecOn with
  | nil => simp [Table.ofList]
  | append_singleton l d ih =>
    have hat : ∀ j, (l ++ [d])[j]? = some c ↔ l[j]? = some c ∨ j = l.length ∧ c = d := by
      intro j
      rcases Nat.lt_trichotomy j l.length with hlt | rfl | hgt
      · rw [List.getElem?_append_left hlt]
        simp [hlt.ne]
      · simp [eq_comm]
      · rw [List.getElem?_eq_none (by simp; omega), List.getElem?_eq_none (by omega)]
        simp [hgt.ne']
    simp only [List.zipIdx_append, List.zipIdx_singleton, Table.ofList_concat, Table.find_put, hat,
      Nat.zero_add, ne_eq, not_or]
    by_cases hc : c = d
    · subst hc
      simp only [if_true, Option.some.injEq, and_true]
      constructor
      · rintro rfl
        refine ⟨.inr rfl, fun j hj => ⟨?_, hj.ne'⟩⟩
        rw [List.getElem?_eq_none hj.le]
        simp
      · rintro ⟨hi | rfl, hlast⟩
        · have hlt := (List.getElem?_eq_some_iff.mp hi).1
          exact absurd rfl (hlast _ hlt).2
        · rfl
    · simp [hc, ih]

/-- A commit of the path has its position there, behind the loop; what is not on the path has
none. -/
theorem find_position {loop path : List String} (hnodup : path.Nodup)
    (hloop : ∀ c ∈ loop, c ∈ path) {c : String} {i : Nat} :
    (Table.ofList (loop ++ path).zipIdx).find c = some i ↔
      ∃ k, i = loop.length + k ∧ path[k]? = some c := by
  rw [find_zipIdx]
  constructor
  · rintro ⟨hi, hlast⟩
    by_cases hlt : i < loop.length
    · -- A commit of the loop is on the path too.
      rw [List.getElem?_append_left hlt] at hi
      obtain ⟨k, hk⟩ := List.mem_iff_getElem?.mp (hloop c (List.mem_of_getElem? hi))
      refine absurd ?_ (hlast (loop.length + k) (by omega))
      rwa [List.getElem?_append_right (Nat.le_add_right ..), Nat.add_sub_cancel_left]
    · rw [List.getElem?_append_right (by omega)] at hi
      exact ⟨i - loop.length, by omega, hi⟩
  · rintro ⟨k, rfl, hk⟩
    refine ⟨by rwa [List.getElem?_append_right (Nat.le_add_right ..), Nat.add_sub_cancel_left],
      fun j hj heq => ?_⟩
    rw [List.getElem?_append_right (by omega)] at heq
    have hlt := (List.getElem?_eq_some_iff.mp heq).1
    refine List.nodup_iff_getElem?_ne_getElem?.mp hnodup k (j - loop.length) (by omega) hlt ?_
    rw [hk, heq]

theorem pairLe_iff {a b : Nat × String} :
    pairLe a b = true ↔ a.1 < b.1 ∨ a.1 = b.1 ∧ a.2 ≤ b.2 := by
  simp [pairLe]

theorem pairLe_trans (a b c : Nat × String) (h : pairLe a b = true) (h' : pairLe b c = true) :
    pairLe a c = true := by
  rw [pairLe_iff] at h h' ⊢
  rcases h with h | ⟨h, hs⟩
  · omega
  · rcases h' with h' | ⟨h', hs'⟩
    · omega
    · exact .inr ⟨h.trans h', String.le_trans hs hs'⟩

theorem pairLe_total (a b : Nat × String) : (pairLe a b || pairLe b a) = true := by
  rw [Bool.or_eq_true, pairLe_iff, pairLe_iff]
  rcases Nat.lt_trichotomy a.1 b.1 with h | h | h
  · exact .inl (.inl h)
  · exact (String.le_total a.2 b.2).imp (fun hs => .inr ⟨h, hs⟩) fun hs => .inr ⟨h.symm, hs⟩
  · exact .inr (.inl h)

theorem pairLe_antisymm (a b : Nat × String) (h : pairLe a b = true) (h' : pairLe b a = true) :
    a = b := by
  rw [pairLe_iff] at h h'
  rcases h with h | ⟨h, hs⟩
  · omega
  · rcases h' with h' | ⟨-, hs'⟩
    · omega
    · exact Prod.ext h (String.le_antisymm hs hs')

/-- The tag that is placed at a commit of the path is the commit's. -/
theorem find_place_path {loop path : List String} (hnodup : path.Nodup)
    (hloop : ∀ c ∈ loop, c ∈ path) (tags : List (String × String)) (released : List String)
    {i : Nat} {tag : String} :
    (tags.foldl (place (Table.ofList (loop ++ path).zipIdx) released) ∅).find i = some tag ↔
      ∃ k c, i = loop.length + k ∧ path[k]? = some c ∧ tagOf tags released c = some tag := by
  have hsame : ∀ k c, path[k]? = some c → (fun sha =>
      decide ((Table.ofList (loop ++ path).zipIdx).find sha = some (loop.length + k))) =
        fun sha => decide (sha = c) := by
    intro k c hk
    funext sha
    refine decide_eq_decide.mpr ((find_position hnodup hloop).trans ⟨?_, ?_⟩)
    · rintro ⟨m, hm, hsha⟩
      obtain rfl : k = m := by omega
      exact Option.some.inj (hsha.symm.trans hk)
    · rintro rfl
      exact ⟨k, rfl, hk⟩
  rw [find_place]
  constructor
  · intro h
    have hne : namesOf tags (fun sha =>
        decide ((Table.ofList (loop ++ path).zipIdx).find sha = some i)) ≠ [] := by
      intro hnil
      rw [hnil] at h
      cases h
    obtain ⟨name, hname⟩ := List.exists_mem_of_ne_nil _ hne
    obtain ⟨t, ht, -⟩ := List.mem_map.mp hname
    have hposition := of_decide_eq_true (List.mem_filter.mp ht).2
    obtain ⟨k, rfl, hk⟩ := (find_position hnodup hloop).mp hposition
    rw [hsame k _ hk] at h
    exact ⟨k, t.2, rfl, hk, h⟩
  · rintro ⟨k, c, rfl, hk, htag⟩
    rw [hsame k c hk]
    exact htag

/-- **The tags in their order.** They are sorted as their commits are on the path. -/
theorem sorted_place {loop path : List String} (hnodup : path.Nodup)
    (hloop : ∀ c ∈ loop, c ∈ path) (tags : List (String × String)) (released : List String) :
    ((tags.foldl (place (Table.ofList (loop ++ path).zipIdx) released) ∅).entries.map
        fun e => (e.1, e.2)).mergeSort pairLe =
      (path.zipIdx loop.length).filterMap fun ci =>
        (tagOf tags released ci.1).map fun tag => (ci.2, tag) := by
  have hsorted : ((path.zipIdx loop.length).filterMap fun ci =>
      (tagOf tags released ci.1).map fun tag => (ci.2, tag)).Pairwise fun a b => a.1 < b.1 := by
    refine List.pairwise_filterMap.mpr ?_
    have hindex : (path.zipIdx loop.length).Pairwise fun a b => a.2 < b.2 := by
      rw [← List.pairwise_map (f := Prod.snd) (R := (· < ·)), List.zipIdx_map_snd]
      exact List.pairwise_lt_range'
    refine hindex.imp fun {a b} hlt x hx y hy => ?_
    obtain ⟨-, -, rfl⟩ := Option.map_eq_some_iff.mp hx
    obtain ⟨-, -, rfl⟩ := Option.map_eq_some_iff.mp hy
    exact hlt
  have hperm : List.Perm ((tags.foldl (place (Table.ofList (loop ++ path).zipIdx) released)
      ∅).entries.map fun e => (e.1, e.2)) ((path.zipIdx loop.length).filterMap fun ci =>
        (tagOf tags released ci.1).map fun tag => (ci.2, tag)) := by
    refine (List.perm_ext_iff_of_nodup ?_ ?_).mpr ?_
    · refine List.Nodup.of_map Prod.fst ?_
      rw [List.map_map]
      exact AList.nodupKeys _
    · exact hsorted.imp fun h heq => by rw [heq] at h; exact lt_irrefl _ h
    · rintro ⟨i, tag⟩
      have hmem : (i, tag) ∈ (tags.foldl (place (Table.ofList (loop ++ path).zipIdx) released)
          ∅).entries.map (fun e => (e.1, e.2)) ↔
            (tags.foldl (place (Table.ofList (loop ++ path).zipIdx) released) ∅).find i =
              some tag := by
        rw [Table.find_eq_some_iff]
        simp
      rw [hmem, find_place_path hnodup hloop, List.mem_filterMap]
      constructor
      · rintro ⟨k, c, rfl, hk, htag⟩
        refine ⟨(c, loop.length + k), List.mk_add_mem_zipIdx_iff_getElem?.mpr hk, ?_⟩
        rw [htag]
        rfl
      · rintro ⟨⟨c, j⟩, hc, htag⟩
        obtain ⟨t, ht, heq⟩ := Option.map_eq_some_iff.mp htag
        obtain ⟨rfl, rfl⟩ := Prod.mk.inj heq
        obtain ⟨hle, hj⟩ := List.mk_mem_zipIdx_iff_le_and_getElem?_sub.mp hc
        exact ⟨j - loop.length, c, by omega, hj, ht⟩
  refine @List.Perm.eq_of_pairwise _ (fun a b => pairLe a b = true) _ _
    (fun a b _ _ => pairLe_antisymm a b) (List.pairwise_mergeSort pairLe_trans pairLe_total _)
    (hsorted.imp fun h => pairLe_iff.mpr (.inl h)) ((List.mergeSort_perm _ _).trans hperm)

/-! ## The chain -/

/-- The steps to tagged commits, one after the other. -/
def chain («from» : String) : List (String × String) → List Step
  | [] => []
  | (commit, tag) :: tagged => ⟨some tag, «from», commit⟩ :: chain commit tagged

/-- The commit that the step after these is from. -/
def chainEnd («from» : String) (tagged : List (String × String)) : String :=
  (tagged.getLast?.map (·.1)).getD «from»

theorem chainEnd_cons (base commit tag : String) (tagged : List (String × String)) :
    chainEnd base ((commit, tag) :: tagged) = chainEnd commit tagged := by
  rw [chainEnd, chainEnd, List.getLast?_cons]
  cases tagged.getLast? <;> rfl

theorem stepsFrom_eq {commits : List String} {placed : List (Nat × String)}
    {tagged : List (String × String)} (base : String)
    (h : placed.map (fun p => (commits[p.1]?, p.2)) = tagged.map fun t => (some t.1, t.2)) :
    stepsFrom commits base placed = some (chain base tagged, chainEnd base tagged) := by
  induction placed generalizing base tagged with
  | nil =>
    obtain rfl : tagged = [] := by simpa using h.symm
    rfl
  | cons p placed ih =>
    cases tagged with
    | nil => cases h
    | cons t tagged =>
      obtain ⟨hp, hrest⟩ := List.cons_eq_cons.mp h
      obtain ⟨hcommit, hname⟩ := Prod.mk.inj hp
      rw [stepsFrom, hcommit, Option.bind_some, ih t.1 hrest, Option.map_some, hname,
        ← chainEnd_cons base t.1 t.2]
      rfl

theorem chain_tagged (base : String) (tagged : List (String × String)) :
    (chain base tagged).filterMap (fun s => s.tag.map fun tag => (s.to, tag)) = tagged := by
  induction tagged generalizing base with
  | nil => rfl
  | cons t tagged ih => simp [chain, ih]

/-- Each step is from where the one before it is to, and `last` goes on from them. -/
theorem chain_linked (base : String) (tagged : List (String × String)) (last : List Step)
    (hlast : last.IsChain fun s t => t.from = s.to)
    (hfrom : ∀ s ∈ last.head?, s.from = chainEnd base tagged) :
    (chain base tagged ++ last).IsChain (fun s t => t.from = s.to) ∧
      ∀ s ∈ (chain base tagged ++ last).head?, s.from = base := by
  induction tagged generalizing base with
  | nil => exact ⟨hlast, hfrom⟩
  | cons t tagged ih =>
    obtain ⟨hchain, hhead⟩ := ih t.1 fun s hs => by rw [hfrom s hs, chainEnd_cons]
    refine ⟨List.isChain_cons.mpr ⟨fun s hs => hhead s hs, hchain⟩, ?_⟩
    intro s hs
    obtain rfl := Option.some.inj hs
    rfl

theorem chain_getLast (base : String) {tagged : List (String × String)} (hne : tagged ≠ []) :
    (chain base tagged).getLast?.map (·.to) = some (chainEnd base tagged) := by
  induction tagged generalizing base with
  | nil => exact absurd rfl hne
  | cons t tagged ih =>
    rw [chainEnd_cons, chain, List.getLast?_cons]
    cases tagged with
    | nil => rfl
    | cons u tagged =>
      have hlast := ih t.1 (by simp)
      cases hl : (chain t.1 (u :: tagged)).getLast? with
      | none =>
        rw [hl] at hlast
        cases hlast
      | some s =>
        rw [hl] at hlast
        exact hlast

/-- The tagged commits of a path, each with its tag. -/
def tagged (tags : List (String × String)) (released path : List String) : List (String × String) :=
  path.filterMap fun c => (tagOf tags released c).map fun tag => (c, tag)

theorem map_position {loop path : List String} (tags : List (String × String))
    (released : List String) :
    ((path.zipIdx loop.length).filterMap fun ci =>
        (tagOf tags released ci.1).map fun tag => (ci.2, tag)).map
          (fun p => ((loop ++ path)[p.1]?, p.2)) =
      (tagged tags released path).map fun t => (some t.1, t.2) := by
  have hpath : path = (path.zipIdx loop.length).map (·.1) := List.zipIdx_map_fst _ _ |>.symm
  rw [tagged]
  conv_rhs => rw [hpath]
  rw [List.map_filterMap, List.filterMap_map, List.map_filterMap]
  refine List.filterMap_congr fun ci hci => ?_
  obtain ⟨hle, hat⟩ := List.mem_zipIdx_iff_le_and_getElem?_sub.mp hci
  have hcommit : (loop ++ path)[ci.2]? = some ci.1 := by rw [List.getElem?_append_right hle, hat]
  cases h : tagOf tags released ci.1 with
  | none => simp [h]
  | some tag => simp [h, hcommit]

/-- What the steps are. -/
structure OneChain (base head : String) (path : List String) (tags : List (String × String))
    (released : List String) (steps : List Step) (folded : List String) : Prop where
  first : steps ≠ [] → steps.head?.map (·.from) = some base
  linked : steps.IsChain fun s t => t.from = s.to
  last : steps ≠ [] → steps.getLast?.map (·.to) = some head
  onPath : ∀ s ∈ steps, s.to ∈ path
  untagged : ∀ s ∈ steps.dropLast, s.tag ≠ none
  kept : steps.filterMap (fun s => s.tag.map fun tag => (s.to, tag)) =
    (tagged tags released path).drop ((tagged tags released path).length - maxReleases)
  folded : folded =
    ((tagged tags released path).take ((tagged tags released path).length - maxReleases)).map (·.2)

theorem chain_eq_nil_iff {base : String} {tagged : List (String × String)} :
    chain base tagged = [] ↔ tagged = [] := by
  cases tagged with
  | nil => exact ⟨fun _ => rfl, fun _ => rfl⟩
  | cons t tagged => simp [chain]

theorem chain_steps {base : String} {tagged : List (String × String)} :
    ∀ s ∈ chain base tagged, s.tag ≠ none ∧ s.to ∈ tagged.map (·.1) := by
  induction tagged generalizing base with
  | nil => exact nofun
  | cons t tagged ih =>
    refine List.forall_mem_cons.mpr ⟨⟨by simp, by simp⟩, fun s hs => ?_⟩
    obtain ⟨htag, hto⟩ := ih s hs
    exact ⟨htag, .tail _ hto⟩

/-- The untagged step to the head, where the last tag is not on it. -/
def closing (base head : String) (tagged : List (String × String)) : List Step :=
  if tagged ≠ [] ∧ head ≠ chainEnd base tagged then [⟨none, chainEnd base tagged, head⟩] else []

/-- What `steps` returns, in terms of the path. -/
theorem steps_eq (hrange : (range.map (·.1)).Nodup) (base head : String)
    (tags : List (String × String)) (released : List String) :
    ∃ path, FirstParents range head path ∧
      steps range base head tags released =
        let all := tagged tags released path
        let kept := all.drop (all.length - maxReleases)
        some (chain base kept ++ closing base head kept,
          (all.take (all.length - maxReleases)).map (·.2)) := by
  obtain ⟨loop, path, hwalk, hloop, hpath⟩ := exists_pathTo hrange head
  refine ⟨path, hpath, ?_⟩
  have hmap := @map_position loop path tags released
  rw [← sorted_place hpath.nodup hloop tags released] at hmap
  -- The last commit walked is the head, unless none is.
  have hlast : ∀ kept : List (String × String), kept.Sublist (tagged tags released path) →
      kept ≠ [] → (loop ++ path).getLast? = some head := by
    intro kept hsub hne
    have hne' : path ≠ [] := by
      rintro rfl
      exact hne (List.sublist_nil.mp hsub)
    rw [List.getLast?_append_of_ne_nil _ hne', hpath.getLast hne']
  unfold steps
  rw [hwalk, Option.bind_some]
  dsimp only
  generalize ((tags.foldl (place (Table.ofList (loop ++ path).zipIdx) released) ∅).entries.map
    fun e => (e.1, e.2)).mergeSort pairLe = sorted at hmap ⊢
  have hlen : sorted.length = (tagged tags released path).length := by
    simpa using congrArg List.length hmap
  have hnames : sorted.map (·.2) = (tagged tags released path).map (·.2) := by
    simpa [List.map_map, Function.comp_def] using congrArg (List.map Prod.snd) hmap
  rw [hlen]
  generalize (tagged tags released path).length - maxReleases = fold
  have hkept := hlast _ (List.drop_sublist fold (tagged tags released path))
  have hsteps := @stepsFrom_eq (loop ++ path) (sorted.drop fold)
    ((tagged tags released path).drop fold) base (by rw [List.map_drop, hmap, List.map_drop])
  rw [hsteps, Option.map_some, List.map_take, hnames, ← List.map_take]
  generalize (tagged tags released path).drop fold = kept at hkept
  unfold closing
  rcases eq_or_ne kept [] with rfl | hne
  · cases (loop ++ path).getLast? with
    | none => rfl
    | some last => rfl
  · rw [hkept hne]
    simp only [ne_eq, chain_eq_nil_iff, hne, not_false_eq_true, true_and]
    split
    · rfl
    · simp

theorem closing_step {base head : String} {kept : List (String × String)} :
    ∀ s ∈ closing base head kept,
      s = ⟨none, chainEnd base kept, head⟩ ∧ kept ≠ [] ∧ head ≠ chainEnd base kept := by
  unfold closing
  split
  · rename_i h
    exact fun s hs => ⟨List.mem_singleton.mp hs, h⟩
  · exact nofun

/-- The steps to tags end at the head, with the untagged step where there is one. -/
theorem closing_getLast {base head : String} {kept : List (String × String)} (hne : kept ≠ []) :
    (chain base kept ++ closing base head kept).getLast?.map (·.to) = some head := by
  unfold closing
  split
  · simp
  · rename_i h
    have hhead : head = chainEnd base kept := by
      by_contra hdiff
      exact h ⟨hne, hdiff⟩
    rw [List.append_nil, chain_getLast base hne, hhead]

/-- **Release steps form one chain.** The steps follow each other from the base to the head along
the first parents, the only untagged one is the last, and the tags of the path are on them or, where
there are too many, folded: each tagged commit has one, in the order of the path. -/
theorem steps_chain (hrange : (range.map (·.1)).Nodup) (base head : String)
    (tags : List (String × String)) (released : List String) :
    ∃ path timeline folded, steps range base head tags released = some (timeline, folded) ∧
      FirstParents range head path ∧ OneChain base head path tags released timeline folded := by
  obtain ⟨path, hpath, hsteps⟩ := steps_eq hrange base head tags released
  have hsub : ∀ fold, ∀ c ∈ ((tagged tags released path).drop fold).map (·.1), c ∈ path := by
    intro fold c hc
    obtain ⟨t, ht, rfl⟩ := List.mem_map.mp hc
    obtain ⟨d, hd, htag⟩ := List.mem_filterMap.mp (List.mem_of_mem_drop ht)
    obtain ⟨-, -, rfl⟩ := Option.map_eq_some_iff.mp htag
    exact hd
  have hne : ∀ kept : List (String × String),
      chain base kept ++ closing base head kept ≠ [] → kept ≠ [] := by
    rintro kept h rfl
    exact h (by simp [chain, closing])
  have hlinked : ∀ kept, (chain base kept ++ closing base head kept).IsChain
      (fun s t => t.from = s.to) ∧
        ∀ s ∈ (chain base kept ++ closing base head kept).head?, s.from = base := by
    intro kept
    refine chain_linked base kept _ ?_ fun s hs => ?_
    · unfold closing
      split
      · exact List.isChain_singleton _
      · exact .nil
    · rw [(closing_step s (List.mem_of_mem_head? hs)).1]
  refine ⟨path, _, _, hsteps, hpath, ?_⟩
  constructor
  case first =>
    intro h
    rw [List.head?_eq_some_head h]
    exact congrArg some ((hlinked _).2 _ (List.head_mem_head? h))
  case linked => exact (hlinked _).1
  case last => exact fun h => closing_getLast (hne _ h)
  case onPath =>
    intro s hs
    rcases List.mem_append.mp hs with hs | hs
    · exact hsub _ _ (chain_steps s hs).2
    · obtain ⟨rfl, hkept, -⟩ := closing_step s hs
      obtain ⟨t, ht⟩ := List.exists_mem_of_ne_nil _ hkept
      have hpath' := List.ne_nil_of_mem (hsub _ t.1 (List.mem_map_of_mem (f := (·.1)) ht))
      exact List.mem_of_getLast? (hpath.getLast hpath')
  case untagged =>
    intro s hs
    unfold closing at hs
    split at hs
    · rw [List.dropLast_concat] at hs
      exact (chain_steps s hs).1
    · rw [List.append_nil] at hs
      exact (chain_steps s (List.dropLast_subset _ hs)).1
  case kept =>
    have hnone : ∀ kept, (closing base head kept).filterMap
        (fun s => s.tag.map fun tag => (s.to, tag)) = [] := by
      intro kept
      refine List.filterMap_eq_nil_iff.mpr fun s hs => ?_
      rw [(closing_step s hs).1]
      rfl
    rw [List.filterMap_append, chain_tagged, hnone, List.append_nil]
  case folded => rfl

/-- Two releases and a commit after them. -/
theorem untaggedHead_chain : ∃ path timeline folded,
    steps [("c1", some "base"), ("c2", some "c1"), ("c3", some "c2")] "base" "c3"
      [("v2", "c2"), ("v1", "c1")] [] = some (timeline, folded) ∧
      FirstParents [("c1", some "base"), ("c2", some "c1"), ("c3", some "c2")] "c3" path ∧
      OneChain "base" "c3" path [("v2", "c2"), ("v1", "c1")] [] timeline folded :=
  steps_chain (by decide) _ _ _ _

end Diffz.Proof.Timeline
