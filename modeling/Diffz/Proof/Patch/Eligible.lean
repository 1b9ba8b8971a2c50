import Diffz.Lib.Fallible
import Diffz.Lib.Sha256
import Diffz.Proof.Patch.Numbers

/-!
# Eligible ranges

A range is eligible when every number of it is found among the rows of one hunk. The numbers of a
parsed hunk run from its start without a hole, so it is enough to look at the two ends of the range.
-/

set_option autoImplicit false

namespace Diffz
namespace Proof
namespace Patch

theorem HunkInv.has_number {h : Hunk} (hi : HunkInv h) (side : Side) (n : Nat) :
    (∃ r ∈ h.rows, r.number side = some n) ↔
      h.start side ≤ n ∧ n < h.start side + h.count side := by
  rw [← List.mem_range'_1, ← hi.numbers side, List.mem_filterMap]

/-- **Eligibility is containment in the range of one hunk.** -/
theorem eligible_iff {sha256 : Bytes → Bytes} {bytes : Bytes} {limits : ParseLimits}
    {report : PatchReport} (h : parsePatch sha256 bytes limits = .ok report) {f : FileChange}
    (hf : f ∈ report.files) (side : Side) (start last : Nat) :
    f.eligible side start last = true ↔
      f.content = .text ∧ 1 ≤ start ∧ start ≤ last ∧ last - start ≤ 10000 ∧
        ∃ h ∈ f.hunks, h.start side ≤ start ∧ last < h.start side + h.count side ∧
          h.count side ≠ 0 := by
  have hinv := (parsePatch_hunksInv h f hf).inv
  unfold FileChange.eligible
  simp only [Bool.and_eq_true, decide_eq_true_eq, and_assoc, List.any_eq_true, List.all_eq_true,
    List.mem_range'_1]
  refine and_congr_right fun _ => and_congr_right fun _ => and_congr_right fun hle =>
    and_congr_right fun _ => ?_
  constructor
  · rintro ⟨h, hh, hall⟩
    have hfirst := ((hinv h hh).has_number side start).mp (hall start ⟨le_refl start, by omega⟩)
    have hlast := ((hinv h hh).has_number side last).mp (hall last ⟨hle, by omega⟩)
    exact ⟨h, hh, hfirst.1, hlast.2, by omega⟩
  · rintro ⟨h, hh, hstart, hlast, -⟩
    refine ⟨h, hh, ?_⟩
    rintro n ⟨hn, hn'⟩
    exact ((hinv h hh).has_number side n).mpr ⟨by omega, by omega⟩

/-- One hunk with a removed, an added and a context row. -/
def replacedLine : Bytes :=
  asBytes "diff --git a/x b/x\n--- a/x\n+++ b/x\n@@ -3,2 +3,2 @@\n-a\n+b\n c\n"

theorem replacedLine_eligible :
    ∃ report, parsePatch Sha256.sha256 replacedLine .default = .ok report ∧
      ∀ f ∈ report.files, f.eligible .right 3 4 = true ↔
        f.content = .text ∧ 1 ≤ 3 ∧ 3 ≤ 4 ∧ 4 - 3 ≤ 10000 ∧
          ∃ h ∈ f.hunks, h.start .right ≤ 3 ∧ 4 < h.start .right + h.count .right ∧
            h.count .right ≠ 0 := by
  obtain ⟨report, h⟩ := ok_of_isOk (x := parsePatch Sha256.sha256 replacedLine .default)
    (by decide +kernel)
  exact ⟨report, h, fun f hf => eligible_iff h hf .right 3 4⟩

end Patch
end Proof
end Diffz
