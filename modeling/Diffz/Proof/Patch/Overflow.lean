import Diffz.Lib.Sha256
import Diffz.Proof.Patch.Numbers

/-!
# The overflow branches are dead code

`hunk_header` refuses a range that leaves `u32`, so the later `checked_add` calls cannot fail. That
is a statement about every input, accepted or not, and `Run` inverts accepted parses only; so the
error paths are walked here. `Quiet` says that a computation does not end in that one error.
-/

set_option autoImplicit false

namespace Diffz
namespace Proof
namespace Patch

def lineOverflow : String := "line overflow"

/-- Not the overflow error. -/
def Quiet {α : Type} (x : Except PatchError α) : Prop :=
  ∀ line, x ≠ .error (.malformed line lineOverflow)

theorem Quiet.ok {α : Type} (a : α) : Quiet (.ok a : Except PatchError α) := by
  intro line h
  cases h

theorem Quiet.bad {α : Type} {i : Nat} {msg : String} (hm : msg ≠ lineOverflow) :
    Quiet (.error (bad i msg) : Except PatchError α) := by
  intro line h
  simp only [Diffz.bad, Except.error.injEq, PatchError.malformed.injEq] at h
  exact hm h.2

theorem Quiet.bind {α β : Type} {x : Except PatchError α} {k : α → Except PatchError β}
    (hx : Quiet x) (hk : ∀ a, x = .ok a → Quiet (k a)) : Quiet (x >>= k) := by
  cases x with
  | error e =>
    intro line h
    exact hx line (by cases h; rfl)
  | ok a => exact hk a rfl

/-- An error handed on as it is. -/
theorem Quiet.error {α β : Type} {x : Except PatchError α} {e : PatchError} (hx : Quiet x)
    (h : x = .error e) : Quiet (.error e : Except PatchError β) := by
  intro line he
  cases he
  exact hx line h

/-! ## Paths -/

theorem unquote_error {v : Bytes} {e : String} (h : RepoPath.unquote v = .error e) :
    e ≠ lineOverflow := by
  -- A rest that fails hands its message on through `map`.
  have through : ∀ {b : UInt8} {x : Except String Bytes},
      (∀ e, x = .error e → e ≠ lineOverflow) →
      ∀ e, x.map (b :: ·) = .error e → e ≠ lineOverflow := by
    intro b x hx e h
    cases x with
    | error e' => exact hx e (by cases h; rfl)
    | ok a => cases h
  fun_induction RepoPath.unquote v generalizing e with
  | case1 => cases h
  | case2 => cases h; decide
  | case3 _ _ _ _ ih => exact through (fun e => ih) e h
  | case4 => cases h; decide
  | case5 => cases h; decide
  | case6 =>
    rename_i ih
    exact through (fun e => ih) e h
  | case7 _ _ _ _ _ _ _ he =>
    cases h
    unfold RepoPath.escape at he
    split at he
    all_goals cases he
    decide
  | case8 _ _ _ _ _ _ _ _ ih => exact through (fun e => ih) e h

theorem new_error {v : Bytes} {e : String} (h : RepoPath.new v = .error e) : e ≠ lineOverflow := by
  unfold RepoPath.new at h
  split at h
  · cases h
  · cases h; decide

theorem fromGitToken_error {v : Bytes} {e : String} (h : RepoPath.fromGitToken v = .error e) :
    e ≠ lineOverflow := by
  unfold RepoPath.fromGitToken at h
  split at h
  · exact new_error h
  · split at h
    · cases h; decide
    · split at h
      · rename_i hu
        cases h
        exact unquote_error hu
      · exact new_error h

theorem withoutSide_error {p : RepoPath} {e : String} (h : p.withoutSide = .error e) :
    e ≠ lineOverflow := by
  unfold RepoPath.withoutSide at h
  split at h
  · exact new_error h
  · cases h

theorem path_quiet (v : Bytes) (line : Nat) (strip : Bool) : Quiet (path v line strip) := by
  unfold path
  split
  · exact .bad (fromGitToken_error ‹_›)
  · split
    · split
      · exact .bad (withoutSide_error ‹_›)
      · exact .ok _
    · exact .ok _

theorem utf8_quiet (v : Bytes) (line : Nat) : Quiet (utf8 v line) := by
  unfold utf8
  split
  · exact .ok _
  · exact .bad (by decide)

theorem headerPaths_quiet (v : Bytes) (line : Nat) : Quiet (headerPaths v line) := by
  unfold headerPaths
  split
  · split
    · split
      · exact (path_quiet _ _ _).bind fun _ _ => (path_quiet _ _ _).bind fun _ _ => .ok _
      · exact .bad (by decide)
    · exact .bad (by decide)
  · split
    · exact (path_quiet _ _ _).bind fun _ _ => (path_quiet _ _ _).bind fun _ _ => .ok _
    · exact .ok _

theorem markerPath_quiet (v : Bytes) (i : Nat) : Quiet (markerPath v i) := by
  unfold markerPath
  dsimp only
  split
  · exact .ok _
  · split
    · exact (path_quiet _ _ _).error ‹_›
    · exact .ok _

theorem applyHeader_quiet (f : FileChange) (i : Nat) (l : Bytes) : Quiet (applyHeader f i l) := by
  unfold applyHeader
  split
  case h_1 | h_2 => exact (markerPath_quiet _ _).bind fun _ _ => .ok _
  case h_3 | h_4 | h_5 | h_6 => exact (path_quiet _ _ _).bind fun _ _ => .ok _
  case h_11 => exact .ok _
  case h_13 =>
    split
    · exact .ok _
    · exact (utf8_quiet _ _).bind fun _ _ => .ok _
  all_goals exact (utf8_quiet _ _).bind fun _ _ => .ok _

/-! ## Hunks -/

theorem pair_quiet (s : List Char) (line : Nat) : Quiet (pair s line) := by
  unfold pair
  dsimp only
  split
  · exact .bad (by decide)
  · split
    · exact .bad (by decide)
    · split
      · exact .bad (by decide)
      · exact .ok _

theorem hunkHeader_quiet (v : Bytes) (line : Nat) : Quiet (hunkHeader v line) := by
  refine (utf8_quiet _ _).bind fun s _ => ?_
  split
  · exact .bad (by decide)
  · split
    · exact .bad (by decide)
    · split
      · exact .bad (by decide)
      · exact (pair_quiet _ _).bind fun _ _ => (pair_quiet _ _).bind fun _ _ => .ok _

theorem markLast_quiet (h : Hunk) (line : Nat) : Quiet (markLast h line) := by
  unfold markLast
  split
  · exact .bad (by decide)
  · split
    · rename_i row _ e he
      unfold markNoFinalNewline at he
      split at he
      · cases he
        exact .bad (by decide)
      · cases he
      · cases he
    · exact .ok _

/-- The point of the module: a range that fits leaves `checked_add` nothing to refuse. -/
theorem takeNumber_quiet {on : Bool} {start count taken line : Nat} {msg : String}
    (hf : start + count ≤ u32Max) (hm : msg ≠ lineOverflow) :
    Quiet (takeNumber on start count taken line msg) := by
  unfold takeNumber
  split
  · split
    · exact .bad hm
    · rename_i hc
      rw [checkedAdd_eq_some (by omega)]
      exact .ok _
  · exact .ok _

theorem hunkRow_quiet {limits : ParseLimits} {h : Hunk} (hf : Fits h) (old new totalRows i : Nat)
    (l : Bytes) : Quiet (hunkRow limits h old new totalRows i l) := by
  unfold hunkRow
  split
  · exact .bad (by decide)
  · split
    · exact .bad (by decide)
    · refine (takeNumber_quiet (hf .left) (by decide)).bind fun o _ => ?_
      refine (takeNumber_quiet (hf .right) (by decide)).bind fun n _ => ?_
      dsimp only
      split
      · intro line h
        cases h
      · exact (utf8_quiet _ _).bind fun _ _ => .ok _

theorem rowLoop_quiet {limits : ParseLimits} {h : Hunk} (hf : Fits h) (old new totalRows i : Nat)
    (rest : List Bytes) : Quiet (rowLoop limits h old new totalRows i rest) := by
  induction rest generalizing h old new totalRows i with
  | nil =>
    rw [rowLoop]
    split
    · exact .bad (by decide)
    · exact .ok _
  | cons l rest ih =>
    rw [rowLoop]
    split
    · split
      · split
        · exact (markLast_quiet _ _).error ‹_›
        · exact ih ((markLast_sameRange ‹_›).fits hf) _ _ _ _
      · split
        · exact (hunkRow_quiet hf _ _ _ _ _).error ‹_›
        · exact ih ((pushRow_sameRange h _).fits hf) _ _ _ _
    · exact .ok _

theorem trailingMarker_quiet (h : Hunk) (c : Cursor) : Quiet (trailingMarker h c) := by
  unfold trailingMarker
  split
  · exact .ok _
  · split
    · split
      · exact (markLast_quiet _ _).error ‹_›
      · exact .ok _
    · exact .ok _

theorem hunk_quiet (limits : ParseLimits) (hunks : List Hunk) (totalRows i : Nat) (l : Bytes)
    (rest : List Bytes) : Quiet (hunk limits hunks totalRows i l rest) := by
  refine (hunkHeader_quiet _ _).bind fun h hh => ?_
  split
  · exact .bad (by decide)
  · exact (rowLoop_quiet (hunkHeader_ok hh).1 _ _ _ _ _).bind fun _ _ => trailingMarker_quiet _ _

/-! ## Files -/

theorem sectionLoop_quiet (limits : ParseLimits) (f : FileChange) (totalRows i : Nat)
    (lines : List Bytes) : Quiet (sectionLoop limits f totalRows i lines) := by
  fun_induction sectionLoop limits f totalRows i lines with
  | case1 => exact .ok _
  | case2 => exact .ok _
  | case3 _ _ _ _ _ _ _ _ hh => exact (hunk_quiet _ _ _ _ _ _).error hh
  | case4 _ _ _ _ _ _ _ _ _ _ ih => exact ih
  | case5 _ _ _ _ _ _ _ ih => exact ih
  | case6 => exact .ok _
  | case7 => exact .bad (by decide)
  | case8 _ _ _ _ _ _ _ _ _ ha => exact (applyHeader_quiet _ _ _).error ha
  | case9 _ _ _ _ _ _ _ _ _ _ ih => exact ih

theorem finishFile_quiet (sha256 : Bytes → Bytes) (f : FileChange) (i : Nat) :
    Quiet (finishFile sha256 f i) := by
  unfold finishFile
  split
  · exact .bad (by decide)
  · exact .ok _

theorem fileSection_quiet (sha256 : Bytes → Bytes) (limits : ParseLimits) (totalRows i : Nat)
    (l : Bytes) (rest : List Bytes) : Quiet (fileSection sha256 limits totalRows i l rest) := by
  unfold fileSection
  split
  · exact (headerPaths_quiet _ _).error ‹_›
  · split
    · exact (sectionLoop_quiet _ _ _ _ _).error ‹_›
    · split
      · exact (finishFile_quiet _ _ _).error ‹_›
      · exact .ok _

theorem fileLoop_quiet (sha256 : Bytes → Bytes) (limits : ParseLimits) (files : List FileChange)
    (totalRows i : Nat) (lines : List Bytes) :
    Quiet (fileLoop sha256 limits files totalRows i lines) := by
  fun_induction fileLoop sha256 limits files totalRows i lines with
  | case1 => exact .ok _
  | case2 _ _ _ _ _ ih => exact ih
  | case3 _ _ _ _ _ _ _ _ ih => exact ih
  | case4 => exact .bad (by decide)
  | case5 =>
    intro line h
    cases h
  | case6 _ _ _ _ _ _ _ _ hs => exact (fileSection_quiet _ _ _ _ _ _).error hs
  | case7 => exact .bad (by decide)
  | case8 _ _ _ _ _ _ _ _ _ _ _ ih => exact ih

theorem checkLines_quiet (limits : ParseLimits) (i : Nat) (lines : List Bytes) :
    Quiet (checkLines limits i lines) := by
  induction lines generalizing i with
  | nil => exact .ok _
  | cons l rest ih =>
    rw [checkLines]
    split
    · intro line h
      cases h
    · split
      · intro line h
        cases h
      · exact ih (i + 1)

theorem parsePatch_quiet (sha256 : Bytes → Bytes) (bytes : Bytes) (limits : ParseLimits) :
    Quiet (parsePatch sha256 bytes limits) := by
  unfold parsePatch
  split
  · intro line h
    cases h
  · split
    · exact (checkLines_quiet _ _ _).error ‹_›
    · split
      · exact (fileLoop_quiet _ _ _ _ _ _).error ‹_›
      · split
        · intro line h
          cases h
        · exact .ok _

/-! ## The hunk representation invariant -/

/-- Every `u32` addition made for a hunk with these ranges gives the sum of the naturals: counting a
row, numbering it, and the end of the range that the next hunk is compared with. -/
structure ExactSums (h : Hunk) : Prop where
  count : ∀ side taken, taken < h.count side → wrappingAdd taken 1 = taken + 1
  number : ∀ side taken, taken < h.count side →
    checkedAdd (h.start side) taken = some (h.start side + taken)
  stop : ∀ side, saturatingAdd (h.start side) (h.count side) = h.start side + h.count side

theorem Fits.exactSums {h : Hunk} (hf : Fits h) : ExactSums h := by
  refine ⟨fun side taken ht => ?_, fun side taken ht => ?_, fun side => saturatingAdd_eq (hf side)⟩
  · have := hf side
    exact wrappingAdd_eq (by omega)
  · have := hf side
    exact checkedAdd_eq_some (by omega)

/-- **Line numbers identify rows.** In every accepted patch each hunk holds the ranges its header
announces, with the numbers its row kinds call for, and along a file the numbers of a side strictly
increase, so a lookup has at most one candidate. For any input at all, the sums of an accepted hunk
header are exact and the overflow error is never returned. -/
theorem parsePatch_hunk_representation (sha256 : Bytes → Bytes) (bytes : Bytes)
    (limits : ParseLimits) :
    (∀ report, parsePatch sha256 bytes limits = .ok report → ∀ f ∈ report.files,
      (∀ h ∈ f.hunks, HunkInv h) ∧
      (∀ side, (f.allRows.filterMap (·.number side)).Pairwise (· < ·)) ∧
      ∀ side n, (f.allRows.filter fun r => r.number side = some n).length ≤ 1) ∧
    (∀ l i h, hunkHeader l i = .ok h → ExactSums h) ∧
    ∀ line, parsePatch sha256 bytes limits ≠ .error (.malformed line "line overflow") := by
  refine ⟨fun report hp f hf => ?_, fun l i h hh => (hunkHeader_ok hh).1.exactSums,
    parsePatch_quiet sha256 bytes limits⟩
  have hi := parsePatch_hunksInv hp f hf
  exact ⟨hi.inv, hi.increasing, fun side n => filter_key_length_le_one (hi.increasing side) n⟩

/-- Two hunks, the first with an EOF marker inside it, the second with an empty old range. -/
def markedHunks : Bytes :=
  asBytes "diff --git a/x b/x\n@@ -4294967290,2 +1,2 @@\n a\n-b\n\\ No newline at end of file\n+c\n@@ -4294967292,0 +3 @@\n+d\n"

theorem markedHunks_representation :
    (∃ report, parsePatch Sha256.sha256 markedHunks .default = .ok report ∧
      (report.files.flatMap (·.hunks)).length = 2 ∧ ∀ f ∈ report.files,
        (∀ h ∈ f.hunks, HunkInv h) ∧
        (∀ side, (f.allRows.filterMap (·.number side)).Pairwise (· < ·)) ∧
        ∀ side n, (f.allRows.filter fun r => r.number side = some n).length ≤ 1) ∧
    ∃ h, hunkHeader (asBytes "@@ -4294967290,2 +1,2 @@") 0 = .ok h ∧ ExactSums h := by
  have hhunks : (parsePatch Sha256.sha256 markedHunks .default).map
      (fun r => (r.files.flatMap (·.hunks)).length) = .ok 2 := by decide +kernel
  obtain ⟨report, hp, hlen⟩ := ok_of_map hhunks
  obtain ⟨h, hh⟩ := ok_of_isOk (x := hunkHeader (asBytes "@@ -4294967290,2 +1,2 @@") 0)
    (by decide +kernel)
  have hrep := parsePatch_hunk_representation Sha256.sha256 markedHunks .default
  exact ⟨⟨report, hp, hlen, hrep.1 report hp⟩, h, hh, hrep.2.1 _ _ h hh⟩

end Patch
end Proof
end Diffz
