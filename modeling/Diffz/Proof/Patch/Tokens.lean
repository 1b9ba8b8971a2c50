import Diffz.Proof.Patch.Quote

/-!
# Quoted paths round trip

What `quote_path` writes is read back by `RepoPath::from_git_token`, with the side in front of the
path, and `without_side` takes the side off again.
-/

set_option autoImplicit false

namespace Diffz
namespace Proof
namespace Patch

open Diffz.Github (quotePath plainByte)

/-- The prefixes `quote_path` is called with. -/
def sidePrefixes : List Bytes := [asBytes "", asBytes "a/", asBytes "b/"]

theorem sidePrefixes_plain : ∀ side ∈ sidePrefixes, side.all plainByte = true := by decide

theorem sidePrefixes_cases {side : Bytes} (hside : side ∈ sidePrefixes) :
    side = [] ∨ ∃ c : UInt8, (c = 97 ∨ c = 98) ∧ side = [c, 47] := by
  simp only [sidePrefixes, List.mem_cons, List.not_mem_nil, or_false] at hside
  rcases hside with rfl | rfl | rfl
  · exact .inl rfl
  · exact .inr ⟨97, .inl rfl, rfl⟩
  · exact .inr ⟨98, .inr rfl, rfl⟩

/-- A path below a side loses it again. -/
theorem withoutSide_below {c : UInt8} (hc : c = 97 ∨ c = 98) (p : RepoPath) :
    RepoPath.withoutSide ⟨c :: 47 :: p.bytes, validPath_side hc p.valid⟩ = .ok p := by
  have hpre : (asBytes "a/").isPrefixOf (c :: 47 :: p.bytes) = true ∨
      (asBytes "b/").isPrefixOf (c :: 47 :: p.bytes) = true := by
    rcases hc with rfl | rfl
    · exact .inl (List.isPrefixOf_iff_prefix.mpr (List.prefix_append [97, 47] _))
    · exact .inr (List.isPrefixOf_iff_prefix.mpr (List.prefix_append [98, 47] _))
  rw [RepoPath.withoutSide, if_pos hpre]
  exact new_of_valid

/-- **Path quoting round trips**, and what is written has neither a line feed nor a tab. -/
theorem quotePath_roundTrip (p : RepoPath) {side : Bytes} (hside : side ∈ sidePrefixes) :
    (∃ q, RepoPath.fromGitToken (quotePath side p.bytes) = .ok q ∧ q.bytes = side ++ p.bytes ∧
        (side ≠ [] → q.withoutSide = .ok p)) ∧
      10 ∉ quotePath side p.bytes ∧ 9 ∉ quotePath side p.bytes := by
  have hplain := sidePrefixes_plain side hside
  refine ⟨?_, fun h => ?_, fun h => ?_⟩
  · rw [fromGitToken_quotePath hplain]
    rcases sidePrefixes_cases hside with rfl | ⟨c, hc, rfl⟩
    · exact ⟨p, new_of_valid, rfl, fun h => absurd rfl h⟩
    · exact ⟨_, dif_pos (validPath_side hc p.valid), rfl, fun _ => withoutSide_below hc p⟩
  · exact absurd (le_of_mem_quotePath hplain h) (by decide)
  · exact absurd (le_of_mem_quotePath hplain h) (by decide)

/-- A path with a quote, a tab and an escape before a digit. -/
theorem quotePath_roundTrip_tab : (∃ q, RepoPath.fromGitToken (quotePath (asBytes "a/")
      (asBytes "x\"\t\x011")) = .ok q ∧ q.bytes = asBytes "a/" ++ asBytes "x\"\t\x011" ∧
        (asBytes "a/" ≠ [] → q.withoutSide = .ok ⟨asBytes "x\"\t\x011", by decide⟩)) ∧
      10 ∉ quotePath (asBytes "a/") (asBytes "x\"\t\x011") ∧
      9 ∉ quotePath (asBytes "a/") (asBytes "x\"\t\x011") :=
  quotePath_roundTrip ⟨asBytes "x\"\t\x011", by decide⟩ (by decide)

end Patch
end Proof
end Diffz
