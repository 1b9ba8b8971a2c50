import Mathlib.Data.List.Pairwise
import Diffz.Core.Rich

/-!
# Markdown blocks cover the text

From a line that is not blank the loop takes a fenced block, a heading or a run of text. The run is of
one line at least, since it stops at what the other two begin at; so every turn goes on, and the ranges
it adds are one after another with blank lines between them (`Covered`).
-/

set_option autoImplicit false

namespace Diffz
namespace Proof
namespace Blocks

open Rich

variable {lines : List String} {like : String → Bool} {i j m : Nat} {rs : List (Nat × Nat)}
  {line : String} {ch : Char} {len : Nat}

/-! ## The inner loops -/

theorem le_scan : j ≤ scan like lines j := by
  fun_induction scan like lines j with
  | case1 j hj hlike ih => exact (Nat.le_succ j).trans ih
  | case2 j hj hlike => exact le_refl _
  | case3 j hj => exact le_refl _

theorem scan_le (h : j ≤ lines.length) : scan like lines j ≤ lines.length := by
  fun_induction scan like lines j with
  | case1 j hj hlike ih => exact ih hj
  | case2 j hj hlike => exact h
  | case3 j hj => exact h

/-- The lines that are passed over are like this. -/
theorem scan_like (hm : j ≤ m) (hlt : m < scan like lines j) (h : lines[m]? = some line) :
    like line = true := by
  fun_induction scan like lines j with
  | case1 j hj hlike ih =>
    rcases Nat.eq_or_lt_of_le hm with rfl | hm
    · rw [List.getElem?_eq_getElem hj] at h
      cases h
      exact hlike
    · exact ih hm hlt
  | case2 j hj hlike => omega
  | case3 j hj => omega

/-- The line it stops at is not. -/
theorem scan_stop (h : lines[scan like lines j]? = some line) : like line = false := by
  fun_induction scan like lines j with
  | case1 j hj hlike ih => exact ih h
  | case2 j hj hlike =>
    rw [List.getElem?_eq_getElem hj] at h
    cases h
    exact Bool.eq_false_iff.mpr hlike
  | case3 j hj => exact absurd (List.getElem?_eq_some_iff.mp h).1 hj

theorem scan_eq (h : j ≤ lines.length) :
    scan like lines j = j + ((lines.drop j).takeWhile like).length := by
  fun_induction scan like lines j with
  | case1 j hj hlike ih =>
    rw [ih hj, List.drop_eq_getElem_cons hj, List.takeWhile_cons, if_pos hlike, List.length_cons]
    omega
  | case2 j hj hlike =>
    rw [List.drop_eq_getElem_cons hj, List.takeWhile_cons, if_neg hlike]
    rfl
  | case3 j hj =>
    rw [List.drop_eq_nil_of_le (Nat.le_of_not_lt hj)]
    rfl

/-! ## What is asked of the ranges -/

/-- The fence that a line opens. -/
def Opens (line : String) (ch : Char) (len : Nat) : Prop :=
  opener (trim line).toList = some (ch, len)

/-- The line repeats the character at least as many times. -/
def Closes (line : String) (ch : Char) (len : Nat) : Prop :=
  len ≤ ((trim line).toList.takeWhile (· = ch)).length

/-- The range ends at the first later line that closes the fence, or at the end of the text. -/
def EndsAtFence (lines : List String) (r : Nat × Nat) (ch : Char) (len : Nat) : Prop :=
  (∀ m line, r.1 < m → m + 1 < r.2 → lines[m]? = some line → ¬ Closes line ch len) ∧
    ((∃ m line, r.1 < m ∧ r.2 = m + 1 ∧ lines[m]? = some line ∧ Closes line ch len) ∨
      (r.2 = lines.length ∧
        ∀ m line, r.1 < m → lines[m]? = some line → ¬ Closes line ch len))

/-- A block: it is fenced, or it has no blank line. -/
structure IsBlock (lines : List String) (r : Nat × Nat) : Prop where
  nonempty : r.1 < r.2
  bound : r.2 ≤ lines.length
  fence : ∀ line ch len, lines[r.1]? = some line → Opens line ch len →
    EndsAtFence lines r ch len
  blank : ∀ m line, r.1 ≤ m → m < r.2 → lines[m]? = some line → isBlank line = true →
    ∃ first ch len, lines[r.1]? = some first ∧ Opens first ch len

/-- From the line `i` on there are these blocks, and blank lines. -/
def Covered (lines : List String) : Nat → List (Nat × Nat) → Prop
  | i, [] => ∀ m line, i ≤ m → lines[m]? = some line → isBlank line = true
  | i, r :: rs => i ≤ r.1 ∧
    (∀ m line, i ≤ m → m < r.1 → lines[m]? = some line → isBlank line = true) ∧
    IsBlock lines r ∧ Covered lines r.2 rs

theorem three_le_of_opens (h : Opens line ch len) : 3 ≤ len := by
  rw [Opens] at h
  cases hl : (trim line).toList with
  | nil =>
    rw [hl] at h
    cases h
  | cons c rest =>
    rw [hl, opener] at h
    split at h
    · cases h
    · dsimp only at h
      split at h
      · rename_i hlen
        cases h
        exact hlen
      · cases h

/-- For a fence of three or more characters the code's test is whether the line closes it. -/
theorem closer_iff (hlen : 3 ≤ len) :
    closer (trim line).toList ch len = true ↔ Closes line ch len := by
  rw [closer, Closes, Bool.and_eq_true, decide_eq_true_eq, decide_eq_true_eq, max_eq_left hlen]
  refine and_iff_right_of_imp fun h => ?_
  cases hl : (trim line).toList with
  | nil =>
    rw [hl] at h
    simp only [List.takeWhile_nil, List.length_nil] at h
    omega
  | cons c rest =>
    by_cases hc : c = ch
    · rw [List.head?_cons, hc]
    · rw [hl, List.takeWhile_cons, if_neg (by simpa using hc), List.length_nil] at h
      omega

/-! ## The three kinds -/

/-- Where a fence ends. -/
def fenceEnd (lines : List String) (ch : Char) (len i : Nat) : Nat :=
  scan (fun l => !closer (trim l).toList ch len) lines (i + 1)

theorem not_closes_of_lt (hopen : Opens line ch len) {l : String} (hm : i < m)
    (hlt : m < fenceEnd lines ch len i) (h : lines[m]? = some l) : ¬ Closes l ch len := by
  rw [← closer_iff (three_le_of_opens hopen)]
  have hlike : (!closer (trim l).toList ch len) = true := scan_like hm hlt h
  simpa using hlike

theorem isBlock_closed (hline : lines[i]? = some line) (hopen : Opens line ch len)
    (hend : fenceEnd lines ch len i < lines.length) :
    IsBlock lines (i, fenceEnd lines ch len i + 1) where
  nonempty := Nat.lt_succ_of_le ((Nat.le_succ i).trans le_scan)
  bound := hend
  fence first ch' len' hfirst hopen' := by
    rw [hline] at hfirst
    cases hfirst
    rw [Opens, hopen] at hopen'
    cases hopen'
    have hstop := List.getElem?_eq_getElem hend
    have hcloses : Closes lines[fenceEnd lines ch len i] ch len := by
      have hclose := scan_stop hstop
      rw [← closer_iff (three_le_of_opens hopen)]
      simpa using hclose
    refine ⟨fun m l hm hlt h => ?_, .inl ⟨_, _, le_scan, rfl, hstop, hcloses⟩⟩
    exact not_closes_of_lt hopen hm (Nat.succ_lt_succ_iff.mp hlt) h
  blank _ _ _ _ _ _ := ⟨line, ch, len, hline, hopen⟩

theorem isBlock_unclosed (hline : lines[i]? = some line) (hopen : Opens line ch len)
    (hend : ¬ fenceEnd lines ch len i < lines.length) : IsBlock lines (i, lines.length) where
  nonempty := (List.getElem?_eq_some_iff.mp hline).1
  bound := le_refl _
  fence first ch' len' hfirst hopen' := by
    rw [hline] at hfirst
    cases hfirst
    rw [Opens, hopen] at hopen'
    cases hopen'
    have hnone : ∀ m l, i < m → lines[m]? = some l → ¬ Closes l ch len := by
      intro m l hm h
      have hlt : m < lines.length := (List.getElem?_eq_some_iff.mp h).1
      exact not_closes_of_lt hopen hm (by omega) h
    exact ⟨fun m l hm _ h => hnone m l hm h, .inr ⟨rfl, hnone⟩⟩
  blank _ _ _ _ _ _ := ⟨line, ch, len, hline, hopen⟩

/-- Lines that are neither blank nor the beginning of a fence. -/
theorem isBlock_plain (hlt : i < j) (hj : j ≤ lines.length)
    (h : ∀ m line, i ≤ m → m < j → lines[m]? = some line →
      isBlank line = false ∧ (opener (trim line).toList).isNone = true) : IsBlock lines (i, j) where
  nonempty := hlt
  bound := hj
  fence line ch len hline hopen := by
    have hnone := (h i line (le_refl i) hlt hline).2
    rw [hopen] at hnone
    cases hnone
  blank m line hm hlt hline hblank := by
    rw [(h m line hm hlt hline).1] at hblank
    cases hblank

theorem isText_iff : isText line = true ↔
    isBlank line = false ∧ isHeading line.toList = false ∧
      (opener (trim line).toList).isNone = true := by
  simp [isText, and_assoc]

/-- The run of text is of one line at least. -/
theorem lt_scan (hline : lines[i]? = some line) (htext : isText line = true) :
    i < scan isText lines i := by
  refine lt_of_le_of_ne le_scan fun heq => ?_
  rw [heq] at hline
  have hstop : isText line = false := scan_stop hline
  rw [htext] at hstop
  cases hstop

theorem isBlock_text (hline : lines[i]? = some line) (htext : isText line = true) :
    IsBlock lines (i, scan isText lines i) := by
  have hlt : i < lines.length := (List.getElem?_eq_some_iff.mp hline).1
  refine isBlock_plain (lt_scan hline htext) (scan_le hlt.le) fun m l hm hlt h => ?_
  obtain ⟨hblank, -, hopen⟩ := isText_iff.mp (scan_like hm hlt h)
  exact ⟨hblank, hopen⟩

/-! ## The outer loop -/

theorem covered_block (hb : IsBlock lines (i, j)) (hrest : Covered lines j rs) :
    Covered lines i ((i, j) :: rs) :=
  ⟨le_refl i, fun _ _ hm hlt _ => absurd hlt (Nat.not_lt.mpr hm), hb, hrest⟩

theorem covered_blank (hline : lines[i]? = some line) (hblank : isBlank line = true)
    (hrest : Covered lines (i + 1) rs) : Covered lines i rs := by
  have hstep : ∀ m l, i ≤ m → (i + 1 ≤ m → isBlank l = true) → lines[m]? = some l →
      isBlank l = true := by
    intro m l hm h hl
    rcases Nat.eq_or_lt_of_le hm with rfl | hm
    · rw [hline] at hl
      cases hl
      exact hblank
    · exact h hm
  cases rs with
  | nil => exact fun m l hm hl => hstep m l hm (fun h => hrest m l h hl) hl
  | cons r rs =>
    obtain ⟨hle, hbefore, hb, hrest⟩ := hrest
    exact ⟨(Nat.le_succ i).trans hle,
      fun m l hm hlt hl => hstep m l hm (fun h => hbefore m l h hlt hl) hl, hb, hrest⟩

/-- **Every turn goes on**, and what the loop adds covers the lines from `i` on. -/
theorem blocksLoop_covered (hi : i ≤ lines.length) :
    Covered lines i (blocksFrom i (lines.drop i)) ∧
      ∀ fuel, lines.length < i + fuel → ∀ out,
        blocksLoop lines fuel i out = some (out ++ blocksFrom i (lines.drop i)) := by
  induction hn : lines.length - i using Nat.strong_induction_on generalizing i with
  | _ n ih =>
  have hfuel : ∀ fuel, lines.length < i + fuel → ∃ less, fuel = less + 1 ∧
      lines.length < i + 1 + less := by
    intro fuel h
    exact ⟨fuel - 1, by omega, by omega⟩
  rcases Nat.eq_or_lt_of_le hi with rfl | hlt
  · rw [List.drop_length, blocksFrom]
    refine ⟨fun m line hm hline => ?_, fun fuel h out => ?_⟩
    · exact absurd (List.getElem?_eq_some_iff.mp hline).1 (Nat.not_lt.mpr hm)
    · obtain ⟨less, rfl, -⟩ := hfuel fuel h
      rw [blocksLoop, List.getElem?_eq_none (le_refl _), List.append_nil]
  have hline := List.getElem?_eq_getElem hlt
  have hcons : lines.drop i = lines[i] :: lines.drop (i + 1) := List.drop_eq_getElem_cons hlt
  rw [hcons]
  generalize lines[i] = line at hline hcons
  by_cases hblank : isBlank line = true
  · obtain ⟨hcovered, hrun⟩ := ih _ (by omega) hlt rfl
    rw [blocksFrom, if_pos hblank]
    refine ⟨covered_blank hline hblank hcovered, fun fuel h out => ?_⟩
    obtain ⟨less, rfl, hless⟩ := hfuel fuel h
    rw [blocksLoop, hline]
    dsimp only
    rw [if_pos hblank, hrun less hless]
  have hrest : (lines.drop (i + 1)).length = lines.length - (i + 1) := List.length_drop
  -- It is enough to name the block, and to say that both add it.
  have hstep : ∀ j, IsBlock lines (i, j) →
      blocksFrom i (line :: lines.drop (i + 1)) = (i, j) :: blocksFrom j (lines.drop j) →
      (∀ fuel out, blocksLoop lines (fuel + 1) i out = blocksLoop lines fuel j (out ++ [(i, j)])) →
      Covered lines i (blocksFrom i (line :: lines.drop (i + 1))) ∧
        ∀ fuel, lines.length < i + fuel → ∀ out, blocksLoop lines fuel i out =
          some (out ++ blocksFrom i (line :: lines.drop (i + 1))) := by
    intro j hb hfrom hloop
    have hij : i < j := hb.nonempty
    obtain ⟨hcovered, hrun⟩ := ih _ (by omega) hb.bound rfl
    rw [hfrom]
    refine ⟨covered_block hb hcovered, fun fuel h out => ?_⟩
    obtain ⟨less, rfl, hless⟩ := hfuel fuel h
    rw [hloop, hrun less (by omega), List.append_assoc]
    rfl
  cases hopen : opener (trim line).toList with
  | some fence =>
    obtain ⟨ch, len⟩ := fence
    have hj : fenceEnd lines ch len i = i + 1 + ((lines.drop (i + 1)).takeWhile
        fun l => !closer (trim l).toList ch len).length := scan_eq hlt
    by_cases hend : fenceEnd lines ch len i < lines.length
    · refine hstep _ (isBlock_closed hline hopen hend) ?_ fun fuel out => ?_
      · rw [blocksFrom, if_neg hblank, hopen]
        dsimp only
        generalize ((lines.drop (i + 1)).takeWhile _).length = body at hj ⊢
        have hstop : i + body + 2 = fenceEnd lines ch len i + 1 := by omega
        have hdrop : i + 1 + (body + 1) = fenceEnd lines ch len i + 1 := by omega
        rw [if_pos (by omega), List.drop_drop, hstop, hdrop]
      · rw [blocksLoop, hline]
        dsimp only
        rw [if_neg hblank, hopen]
        exact if_pos hend
    · refine hstep _ (isBlock_unclosed hline hopen hend) ?_ fun fuel out => ?_
      · rw [blocksFrom, if_neg hblank, hopen]
        dsimp only
        rw [if_neg (by omega), List.drop_length, blocksFrom, hrest]
        congr 2
        omega
      · rw [blocksLoop, hline]
        dsimp only
        rw [if_neg hblank, hopen]
        exact if_neg hend
  | none =>
    by_cases hheading : isHeading line.toList = true
    · refine hstep _ (isBlock_plain (Nat.lt_succ_self i) hlt fun m l hm hm' hl => ?_) ?_
        fun fuel out => ?_
      · obtain rfl : m = i := by omega
        rw [hline] at hl
        cases hl
        exact ⟨Bool.eq_false_iff.mpr hblank, by rw [hopen]; rfl⟩
      · rw [blocksFrom, if_neg hblank, hopen]
        exact if_pos hheading
      · rw [blocksLoop, hline]
        dsimp only
        rw [if_neg hblank, hopen]
        exact if_pos hheading
    · have htext : isText line = true := isText_iff.mpr
        ⟨Bool.eq_false_iff.mpr hblank, Bool.eq_false_iff.mpr hheading, by rw [hopen]; rfl⟩
      have hj : scan isText lines i =
          i + 1 + ((lines.drop (i + 1)).takeWhile isText).length := by
        rw [scan_eq hlt.le, hcons, List.takeWhile_cons, if_pos htext, List.length_cons]
        omega
      refine hstep _ (isBlock_text hline htext) ?_ fun fuel out => ?_
      · rw [blocksFrom, if_neg hblank, hopen]
        dsimp only
        rw [if_neg hheading, List.drop_drop, hj]
      · rw [blocksLoop, hline]
        dsimp only
        rw [if_neg hblank, hopen]
        exact if_neg hheading

/-! ## The claim -/

theorem covered_mem (h : Covered lines i rs) {r : Nat × Nat} (hr : r ∈ rs) :
    i ≤ r.1 ∧ IsBlock lines r := by
  induction rs generalizing i with
  | nil => cases hr
  | cons s rs ih =>
    obtain ⟨hle, -, hb, hrest⟩ := h
    rcases List.mem_cons.mp hr with rfl | hr
    · exact ⟨hle, hb⟩
    · obtain ⟨hle', hb'⟩ := ih hrest hr
      have hlt : s.1 < s.2 := hb.nonempty
      exact ⟨by omega, hb'⟩

theorem covered_pairwise (h : Covered lines i rs) : rs.Pairwise fun r s => r.2 ≤ s.1 := by
  induction rs generalizing i with
  | nil => exact .nil
  | cons r rs ih =>
    obtain ⟨-, -, -, hrest⟩ := h
    exact List.pairwise_cons.mpr ⟨fun s hs => (covered_mem hrest hs).1, ih hrest⟩

theorem covered_line (h : Covered lines i rs) (hm : i ≤ m) (hline : lines[m]? = some line)
    (hblank : isBlank line = false) : ∃ r ∈ rs, r.1 ≤ m ∧ m < r.2 := by
  induction rs generalizing i with
  | nil =>
    rw [h m line hm hline] at hblank
    cases hblank
  | cons r rs ih =>
    obtain ⟨hle, hbefore, hb, hrest⟩ := h
    rcases Nat.lt_or_ge m r.1 with hlt | hge
    · rw [hbefore m line hm hlt hline] at hblank
      cases hblank
    rcases Nat.lt_or_ge m r.2 with hlt | hge'
    · exact ⟨r, List.mem_cons_self, hge, hlt⟩
    · obtain ⟨s, hs, hin⟩ := ih hrest hge'
      exact ⟨s, List.mem_cons_of_mem r hs, hin⟩

/-- **The blocks cover the text.** The loops end, and what they return has every line that is not
blank in one range. -/
theorem blocks_cover (lines : List String) :
    (∀ fuel, lines.length < fuel → blocksLoop lines fuel 0 [] = some (blocks lines)) ∧
      (blocks lines).Pairwise (fun r s => r.2 ≤ s.1) ∧ (∀ r ∈ blocks lines, IsBlock lines r) ∧
      (∀ m line, lines[m]? = some line → isBlank line = false →
        ∃! r, r ∈ blocks lines ∧ r.1 ≤ m ∧ m < r.2) ∧
      ∀ m line, lines[m]? = some line → (∀ r ∈ blocks lines, ¬ (r.1 ≤ m ∧ m < r.2)) →
        isBlank line = true := by
  obtain ⟨hcovered, hrun⟩ := blocksLoop_covered (Nat.zero_le lines.length)
  have hordered := covered_pairwise hcovered
  refine ⟨fun fuel h => hrun fuel (by omega) [], hordered,
    fun r hr => (covered_mem hcovered hr).2, fun m line hline hblank => ?_,
    fun m line hline hnone => ?_⟩
  · obtain ⟨r, hr, hin⟩ := covered_line hcovered (Nat.zero_le m) hline hblank
    refine ⟨r, ⟨hr, hin⟩, fun s hs => ?_⟩
    by_contra hne
    have hsymm : Std.Symm fun r s : Nat × Nat => r.2 ≤ s.1 ∨ s.2 ≤ r.1 := ⟨fun _ _ => Or.symm⟩
    have heither : (blocks lines).Pairwise fun r s => r.2 ≤ s.1 ∨ s.2 ≤ r.1 := hordered.imp Or.inl
    have hapart : s.2 ≤ r.1 ∨ r.2 ≤ s.1 := heither.forall hs.1 hr hne
    obtain ⟨-, hle, hlt⟩ := hs
    omega
  · by_contra hblank
    obtain ⟨r, hr, hin⟩ := covered_line hcovered (Nat.zero_le m) hline (Bool.eq_false_iff.mpr hblank)
    exact hnone r hr hin

end Blocks
end Proof
end Diffz
