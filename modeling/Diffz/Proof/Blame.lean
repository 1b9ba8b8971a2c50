import Mathlib.Data.List.Pairwise
import Diffz.Core.ReviewDetails

/-!
# Blame lookup finds the right range

The ranges are sorted by where they begin, and searched by where they end. Disjoint ranges have one
order for both (`attributeRanges_ordered`), so the ranges that end before a line come first, and the next
one is the only one that can hold it.
-/

set_option autoImplicit false

namespace Diffz
namespace Proof
namespace Blame

variable {releases : List Release} {ranges : List (Nat × Nat × String)} {sha : String} {n : Nat}
  {b : Blamed}

/-- The first line of a range is not after its last one. -/
def Proper (r : Nat × Nat × String) : Prop := r.1 ≤ r.2.1

/-- One range ends before the other begins. -/
def Apart (r s : Nat × Nat × String) : Prop := r.2.1 < s.1 ∨ s.2.1 < r.1

instance : DecidablePred Proper := fun _ => inferInstanceAs (Decidable (_ ≤ _))

instance : DecidableRel Apart := fun _ _ => inferInstanceAs (Decidable (_ ∨ _))

/-! ## Commits and releases -/

theorem shaReleases_some (h : (shaReleases releases).get sha = some n) :
    ∃ r, releases[n]? = some r ∧ sha ∈ r.shas := by
  rw [shaReleases, OrdMap.get_ofList, List.lookup_eq_some_iff] at h
  obtain ⟨before, after, heq, -⟩ := h
  have hmem : (sha, n) ∈ (releases.zipIdx.flatMap fun r => r.1.shas.map fun sha => (sha, r.2)) := by
    rw [← List.mem_reverse, heq]
    exact List.mem_append_right _ List.mem_cons_self
  obtain ⟨⟨r, i⟩, hr, hmem⟩ := List.mem_flatMap.mp hmem
  obtain ⟨sha', hsha, heq⟩ := List.mem_map.mp hmem
  cases heq
  exact ⟨r, List.mem_zipIdx_iff_getElem?.mp hr, hsha⟩

theorem shaReleases_isSome (h : ∃ r ∈ releases, sha ∈ r.shas) :
    ∃ n, (shaReleases releases).get sha = some n := by
  obtain ⟨r, hr, hsha⟩ := h
  obtain ⟨i, hi⟩ := List.mem_iff_getElem?.mp hr
  rw [shaReleases, OrdMap.get_ofList, ← Option.isSome_iff_exists, Option.isSome_iff_ne_none, Ne,
    List.lookup_eq_none_iff]
  intro hnone
  have hmem : (sha, i) ∈ releases.zipIdx.flatMap fun r => r.1.shas.map fun sha => (sha, r.2) :=
    List.mem_flatMap.mpr ⟨(r, i), List.mem_zipIdx_iff_getElem?.mpr hi, List.mem_map_of_mem hsha⟩
  exact absurd (hnone _ (List.mem_reverse.mpr hmem)) (by simp)

/-! ## The attributed ranges -/

theorem mem_attributeRanges : b ∈ attributeRanges releases ranges ↔
    (b.start, b.stop, b.commit) ∈ ranges ∧
      (shaReleases releases).get b.commit = some b.release := by
  rw [attributeRanges, (List.mergeSort_perm _ _).mem_iff, List.mem_filterMap]
  constructor
  · rintro ⟨r, hr, hb⟩
    obtain ⟨n, hn, rfl⟩ := Option.map_eq_some_iff.mp hb
    exact ⟨hr, hn⟩
  · rintro ⟨hr, hn⟩
    exact ⟨_, hr, Option.map_eq_some_iff.mpr ⟨_, hn, rfl⟩⟩

/-- **Each range ends before the next one begins.** -/
theorem attributeRanges_ordered (hproper : ∀ r ∈ ranges, Proper r) (hapart : ranges.Pairwise Apart) :
    (attributeRanges releases ranges).Pairwise fun b c => b.stop < c.start := by
  have hsorted : (attributeRanges releases ranges).Pairwise fun b c =>
      decide (b.start ≤ c.start) = true := by
    refine List.pairwise_mergeSort ?_ ?_ _
    · intro b c d hbc hcd
      rw [decide_eq_true_eq] at hbc hcd ⊢
      exact hbc.trans hcd
    · intro b c
      rw [Bool.or_eq_true, decide_eq_true_eq, decide_eq_true_eq]
      exact Nat.le_total _ _
  have hdisjoint : (attributeRanges releases ranges).Pairwise fun b c =>
      b.stop < c.start ∨ c.stop < b.start := by
    refine (List.mergeSort_perm _ _).symm.pairwise ?_ fun {b c} h => h.symm
    refine List.Pairwise.filterMap _ (fun r s h b hb c hc => ?_) hapart
    obtain ⟨m, -, rfl⟩ := Option.map_eq_some_iff.mp hb
    obtain ⟨n, -, rfl⟩ := Option.map_eq_some_iff.mp hc
    exact h
  refine (hsorted.and hdisjoint).imp_of_mem fun {b c} hb hc h => ?_
  rcases h.2 with hlt | hlt
  · exact hlt
  · have hb : b.start ≤ b.stop := hproper _ (mem_attributeRanges.mp hb).1
    have hc : c.start ≤ c.stop := hproper _ (mem_attributeRanges.mp hc).1
    have hle : b.start ≤ c.start := of_decide_eq_true h.1
    omega

/-! ## The lookup -/

/-- The range that is found is the one that holds the line. -/
theorem point_eq_some_iff {l : List Blamed} (hordered : l.Pairwise fun b c => b.stop < c.start)
    (hproper : ∀ b ∈ l, b.start ≤ b.stop) (line : Nat) :
    (l[bisect (fun b => decide (b.stop < line)) l]?.filter fun b => decide (b.start ≤ line)) =
      some b ↔ b ∈ l ∧ b.start ≤ line ∧ line ≤ b.stop := by
  have hends : l.Pairwise fun b c =>
      decide (c.stop < line) = true → decide (b.stop < line) = true := by
    refine hordered.imp_of_mem fun {b c} _ hc h hlt => ?_
    have hc : c.start ≤ c.stop := hproper c hc
    rw [decide_eq_true_eq] at hlt ⊢
    omega
  obtain ⟨before, after, rfl, hbefore, hafter, hpoint⟩ := bisect_split hends
  rw [hpoint, List.getElem?_append_right (le_refl _), Nat.sub_self, ← List.head?_eq_getElem?,
    Option.filter_eq_some_iff, decide_eq_true_eq, List.mem_append]
  constructor
  · rintro ⟨hhead, hle⟩
    have hmem : b ∈ after := List.mem_of_mem_head? hhead
    have hge := of_decide_eq_false (hafter b hmem)
    exact ⟨.inr hmem, hle, Nat.not_lt.mp hge⟩
  · rintro ⟨hmem, hle, hge⟩
    refine ⟨?_, hle⟩
    rcases hmem with hmem | hmem
    · have hlt := of_decide_eq_true (hbefore b hmem)
      omega
    · cases after with
      | nil => cases hmem
      | cons c rest =>
        rcases List.mem_cons.mp hmem with rfl | hmem
        · rfl
        -- The first range that does not end before the line would end before `b` begins.
        · have hlt := (List.pairwise_cons.mp (List.pairwise_append.mp hordered).2.1).1 b hmem
          have hge := of_decide_eq_false (hafter c List.mem_cons_self)
          omega

/-- **The lookup is right**: a range is found when one of those given holds the line and its commit
came in a release, and it is that one. -/
theorem blamed_attribute (releases : List Release) (ranges : List (Nat × Nat × String))
    (hproper : ∀ r ∈ ranges, Proper r) (hapart : ranges.Pairwise Apart) (blame : BlameRead)
    (path : String) (line : Nat) :
    let found := blamed (blame.insert path (some (attributeRanges releases ranges))) path line
    (found.isSome = true ↔ ∃ r ∈ ranges, r.1 ≤ line ∧ line ≤ r.2.1 ∧
      ∃ release ∈ releases, r.2.2 ∈ release.shas) ∧
    ∀ b, found = some b → (b.start, b.stop, b.commit) ∈ ranges ∧ b.start ≤ line ∧ line ≤ b.stop ∧
      ∃ release, releases[b.release]? = some release ∧ b.commit ∈ release.shas := by
  intro found
  have hfound : ∀ b, found = some b ↔
      b ∈ attributeRanges releases ranges ∧ b.start ≤ line ∧ line ≤ b.stop := by
    intro b
    have hget : (blame.insert path (some (attributeRanges releases ranges))).get path =
        some (some (attributeRanges releases ranges)) := by
      rw [OrdMap.get_insert, if_pos rfl]
    refine Iff.trans ?_ (point_eq_some_iff (attributeRanges_ordered hproper hapart) ?_ line)
    · show blamed _ path line = some b ↔ _
      rw [blamed, hget]
    · exact fun b hb => hproper _ (mem_attributeRanges.mp hb).1
  constructor
  · rw [Option.isSome_iff_exists]
    constructor
    · rintro ⟨b, hb⟩
      obtain ⟨hmem, hle, hge⟩ := (hfound b).mp hb
      obtain ⟨hr, hn⟩ := mem_attributeRanges.mp hmem
      obtain ⟨release, hrelease, hsha⟩ := shaReleases_some hn
      exact ⟨_, hr, hle, hge, release, List.mem_of_getElem? hrelease, hsha⟩
    · rintro ⟨r, hr, hle, hge, hsha⟩
      obtain ⟨n, hn⟩ := shaReleases_isSome hsha
      exact ⟨⟨r.1, r.2.1, n, r.2.2⟩, (hfound _).mpr ⟨mem_attributeRanges.mpr ⟨hr, hn⟩, hle, hge⟩⟩
  · intro b hb
    obtain ⟨hmem, hle, hge⟩ := (hfound b).mp hb
    obtain ⟨hr, hn⟩ := mem_attributeRanges.mp hmem
    exact ⟨hr, hle, hge, shaReleases_some hn⟩

def sampleRelease (shas : List String) : Release where
  tag := none
  commit := "c"
  date := none
  commits := 1
  files := []
  notes := none
  url := none
  shas := shas

/-- Three ranges out of order, one of them of a commit that no release has. -/
def sampleRanges : List (Nat × Nat × String) := [(9, 12, "b"), (1, 3, "old"), (4, 8, "a")]

theorem sampleRanges_line :
    let found := blamed (OrdMap.empty.insert "f.rs" (some (attributeRanges
      [sampleRelease ["a"], sampleRelease ["a", "b"]] sampleRanges))) "f.rs" 5
    (found.isSome = true ↔ ∃ r ∈ sampleRanges, r.1 ≤ 5 ∧ 5 ≤ r.2.1 ∧
      ∃ release ∈ [sampleRelease ["a"], sampleRelease ["a", "b"]], r.2.2 ∈ release.shas) ∧
    ∀ b, found = some b → (b.start, b.stop, b.commit) ∈ sampleRanges ∧ b.start ≤ 5 ∧ 5 ≤ b.stop ∧
      ∃ release, [sampleRelease ["a"], sampleRelease ["a", "b"]][b.release]? = some release ∧
        b.commit ∈ release.shas :=
  blamed_attribute _ sampleRanges (by decide) (by decide) _ _ _

end Blame
end Proof
end Diffz
