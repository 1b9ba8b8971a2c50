import Diffz.Adapters.Releases
import Diffz.Lib.Reach

/-!
# Every commit of a compare is credited once

The searches of all steps share what they have seen, so they are one search: it has as many roots as
steps are done, and its `Frontier` is empty between two of them.
-/

set_option autoImplicit false

namespace Diffz.Proof.Timeline

open Diffz.Releases

/-- The commits of the range, each with its parents. -/
def commits (range : List (String × List String)) : Graph String where
  node := fun c => c ∈ range.map (·.1)
  edge := fun c p => ∃ up, (c, up) ∈ range ∧ p ∈ up

variable {range : List (String × List String)} {roots seen next added : List String}

/-- One search: it goes on with what is seen, and what it adds is what it sees. -/
theorem search_frontier (hrange : (range.map (·.1)).Nodup)
    (h : (commits range).Frontier roots seen next) :
    ∃ seen' found, search (Table.ofList range) seen next added = (seen', added ++ found) ∧
      (commits range).Frontier roots seen' [] ∧ found.Nodup ∧
      (∀ c, c ∈ seen' ↔ c ∈ seen ∨ c ∈ found) ∧ ∀ c ∈ found, c ∉ seen := by
  fun_induction search (Table.ofList range) seen next added with
  | case1 seen added => exact ⟨seen, [], by simp, h, .nil, by simp, by simp⟩
  | case2 seen added sha next hfind ih =>
    refine ih (h.skip fun hnode => ?_)
    rw [← Option.not_isSome_iff_eq_none, Table.find_ofList_isSome] at hfind
    exact absurd hnode hfind
  | case3 seen added sha next up hfind hseen ih => exact ih (h.skip fun _ => hseen)
  | case4 seen added sha next up hfind hseen ih =>
    have hmem : (sha, up) ∈ range := (Table.find_ofList_iff hrange).mp hfind
    have hedge : ∀ y, (commits range).edge sha y ↔ y ∈ up.reverse := by
      intro y
      rw [List.mem_reverse]
      refine ⟨fun ⟨up', hmem', hy⟩ => ?_, fun hy => ⟨up, hmem, hy⟩⟩
      rw [← Table.find_ofList_iff hrange, hfind] at hmem'
      rwa [Option.some.inj hmem']
    obtain ⟨seen', found, hsearch, hfrontier, hnodup, hmem', hnew⟩ :=
      ih (h.visit (List.mem_map_of_mem (f := (·.1)) hmem) hedge)
    refine ⟨seen', sha :: found, by rw [hsearch]; simp, hfrontier, ?_, fun c => ?_, ?_⟩
    · refine hnodup.cons fun hfound => hnew sha hfound (List.mem_cons_self ..)
    · rw [hmem', List.mem_cons, List.mem_cons]
      tauto
    · refine List.forall_mem_cons.mpr ⟨hseen, fun c hc hseen' => hnew c hc (.tail _ hseen')⟩

/-- The steps: after `i` of them the commits are seen that these lead to. -/
theorem membersFrom_credits (hrange : (range.map (·.1)).Nodup) (steps : List Step)
    (h : (commits range).Frontier roots seen []) :
    (membersFrom (Table.ofList range) seen steps).length = steps.length ∧
      (membersFrom (Table.ofList range) seen steps).flatten.Nodup ∧
      (∀ c ∈ (membersFrom (Table.ofList range) seen steps).flatten, c ∉ seen) ∧
      ∀ i c, (c ∈ seen ∨ c ∈ ((membersFrom (Table.ofList range) seen steps).take i).flatten) ↔
        (commits range).Reachable (roots ++ (steps.take i).map (·.to)) c := by
  induction steps generalizing roots seen with
  | nil =>
    refine ⟨rfl, .nil, nofun, fun i c => ?_⟩
    simp only [membersFrom, List.take_nil, List.flatten_nil, List.not_mem_nil, or_false,
      List.map_nil, List.append_nil, h.mem_iff]
  | cons step steps ih =>
    obtain ⟨seen', found, hsearch, hfrontier, hnodup, hmem, hnew⟩ :=
      @search_frontier range _ seen [step.to] [] hrange (h.root step.to)
    obtain ⟨hlen, hrest, hafter, hcredit⟩ := ih hfrontier
    have hmembers : membersFrom (Table.ofList range) seen (step :: steps) =
        found :: membersFrom (Table.ofList range) seen' steps := by
      rw [membersFrom, hsearch, List.nil_append]
    rw [hmembers]
    refine ⟨by rw [List.length_cons, hlen, List.length_cons], ?_, ?_, fun i c => ?_⟩
    · rw [List.flatten_cons]
      refine List.nodup_append.mpr ⟨hnodup, hrest, fun c hc d hd heq => ?_⟩
      exact hafter d hd ((hmem d).mpr (.inr (heq ▸ hc)))
    · intro c hc hseen
      rw [List.flatten_cons, List.mem_append] at hc
      rcases hc with hc | hc
      · exact hnew c hc hseen
      · exact hafter c hc ((hmem c).mpr (.inl hseen))
    · cases i with
      | zero =>
        simp only [List.take_zero, List.flatten_nil, List.not_mem_nil, or_false, List.map_nil,
          List.append_nil, h.mem_iff]
      | succ i =>
        have hroots : roots ++ ((step :: steps).take (i + 1)).map (·.to) =
            (roots ++ [step.to]) ++ (steps.take i).map (·.to) := by simp
        rw [hroots, ← hcredit i c, hmem, List.take_succ_cons, List.flatten_cons, List.mem_append,
          or_assoc]

/-- **Every commit is credited once**, to the first step that leads to it: there is a list for each
step, no commit is listed twice, all are of the range, and those of the first `i` lists are the
commits that the first `i` steps lead to. -/
theorem members_credits (range : List (String × List String))
    (hrange : (range.map (·.1)).Nodup) (steps : List Step) :
    (members range steps).length = steps.length ∧ (members range steps).flatten.Nodup ∧
      (∀ c ∈ (members range steps).flatten, c ∈ range.map (·.1)) ∧
      ∀ i c, c ∈ ((members range steps).take i).flatten ↔
        (commits range).Reachable ((steps.take i).map (·.to)) c := by
  obtain ⟨hlen, hnodup, -, hcredit⟩ := membersFrom_credits hrange steps .start
  have hreach : ∀ i c, c ∈ ((members range steps).take i).flatten ↔
      (commits range).Reachable ((steps.take i).map (·.to)) c := by
    intro i c
    simpa [members] using hcredit i c
  refine ⟨hlen, hnodup, fun c hc => ?_, hreach⟩
  have hall := hreach (members range steps).length c
  rw [List.take_length] at hall
  exact (hall.mp hc).node

/-- A branch joins the step that merged it. -/
theorem mergedBranch_credits :
    let range := [("c1", ["base"]), ("c2", ["c1"]), ("c3", ["c2", "s1"]), ("s1", ["c1"])]
    let steps : List Step := [⟨some "v1", "base", "c2"⟩, ⟨none, "c2", "c3"⟩]
    (members range steps).length = steps.length ∧ (members range steps).flatten.Nodup ∧
      (∀ c ∈ (members range steps).flatten, c ∈ range.map (·.1)) ∧
      ∀ i c, c ∈ ((members range steps).take i).flatten ↔
        (commits range).Reachable ((steps.take i).map (·.to)) c :=
  members_credits _ (by decide) _

end Diffz.Proof.Timeline
