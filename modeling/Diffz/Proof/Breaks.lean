import Mathlib.Data.List.Pairwise
import Mathlib.Tactic.Linarith
import Diffz.Ui.NativeText

/-!
# Line breaks cover the line

The inner loop stops at the first cluster that does not fit, and since positions do not decrease, no
later one does (`Fits`). The break is one of three things: the last cluster, the last preferred one
that fits, or the last one that fits and at least the next one; each is past the beginning of the
line, so the loop ends (`breaksLoop_lines`).
-/

set_option autoImplicit false

namespace Diffz
namespace Proof
namespace Breaks

variable {clusters : List Cluster} {preferred : Finset Nat} {width x : ℚ} {start stop : Nat}
  {f : Fit} {parts : List Span}

/-! ## What is asked of the ranges -/

/-- The ranges follow one another from `p` to `q`, and none is empty. -/
def Abut : Nat → List Span → Nat → Prop
  | p, [], q => p = q
  | p, r :: rest, q => r.start = p ∧ r.start < r.stop ∧ Abut r.stop rest q

/-- A range from one cluster to another: it fits, or is a single cluster, and where a preferred offset
fits it ends at one. -/
def IsLine (clusters : List Cluster) (preferred : Finset Nat) (width : ℚ) (r : Span) : Prop :=
  ∃ i k a b, clusters[i]? = some a ∧ clusters[k]? = some b ∧ i < k ∧ r = ⟨a.1, b.1⟩ ∧
    (b.2 - a.2 ≤ width ∨ k = i + 1) ∧
    (k + 1 < clusters.length →
      (∃ c ∈ clusters, a.1 < c.1 ∧ c.1 ∈ preferred ∧ c.2 - a.2 ≤ width) → b.1 ∈ preferred)

/-! ## The inner loop -/

/-- The clusters before `j` fit, and the last preferred one among them is known. -/
structure Fits (clusters : List Cluster) (preferred : Finset Nat) (width x : ℚ) (start : Nat)
    (f : Fit) : Prop where
  after : start < f.j
  lastFit : f.lastFit + 1 = f.j
  bound : f.j ≤ clusters.length
  fit : ∀ m c, start < m → m < f.j → clusters[m]? = some c → c.2 - x ≤ width
  found : ∀ m, f.lastPreferred = some m → start < m ∧ m < f.j ∧
    ∀ c, clusters[m]? = some c → c.1 ∈ preferred
  missed : f.lastPreferred = none →
    ∀ m c, start < m → m < f.j → clusters[m]? = some c → c.1 ∉ preferred

theorem fits_start (h : start + 1 < clusters.length) :
    Fits clusters preferred width x start
      { j := start + 1, lastFit := start, lastPreferred := none } where
  after := Nat.lt_succ_self start
  lastFit := rfl
  bound := h.le
  fit m c hm hlt _ := absurd hm (Nat.not_lt.mpr (Nat.le_of_lt_succ hlt))
  found m hm := by cases hm
  missed _ m c hm hlt _ := absurd hm (Nat.not_lt.mpr (Nat.le_of_lt_succ hlt))

theorem fits_step (h : Fits clusters preferred width x start f) (hj : f.j < clusters.length)
    (hfit : clusters[f.j].2 - x ≤ width) :
    Fits clusters preferred width x start
      { j := f.j + 1
        lastFit := f.j
        lastPreferred := if clusters[f.j].1 ∈ preferred then some f.j else f.lastPreferred } where
  after := Nat.lt_succ_of_lt h.after
  lastFit := rfl
  bound := hj
  fit m c hm hlt hc := by
    rcases Nat.lt_succ_iff_lt_or_eq.mp hlt with hlt | rfl
    · exact h.fit m c hm hlt hc
    · rw [List.getElem?_eq_getElem hj] at hc
      cases hc
      exact hfit
  found m hm := by
    dsimp only at hm
    split at hm
    · rename_i hmem
      cases hm
      refine ⟨h.after, Nat.lt_succ_self _, fun c hc => ?_⟩
      rw [List.getElem?_eq_getElem hj] at hc
      cases hc
      exact hmem
    · obtain ⟨hafter, hlt, hmem⟩ := h.found m hm
      exact ⟨hafter, Nat.lt_succ_of_lt hlt, hmem⟩
  missed hnone m c hm hlt hc := by
    dsimp only at hnone
    split at hnone
    · cases hnone
    · rename_i hmem
      rcases Nat.lt_succ_iff_lt_or_eq.mp hlt with hlt | rfl
      · exact h.missed hnone m c hm hlt hc
      · rw [List.getElem?_eq_getElem hj] at hc
        cases hc
        exact hmem

/-- **The loop stops at the first cluster that does not fit.** -/
theorem fitLoop_fits (h : Fits clusters preferred width x start f) :
    Fits clusters preferred width x start (fitLoop clusters preferred width x f) ∧
      ∀ c, clusters[(fitLoop clusters preferred width x f).j]? = some c → ¬ c.2 - x ≤ width := by
  fun_induction fitLoop clusters preferred width x f with
  | case1 f hj hfit ih => exact ih (fits_step h hj hfit)
  | case2 f hj hfit =>
    refine ⟨h, fun c hc => ?_⟩
    rw [List.getElem?_eq_getElem hj] at hc
    cases hc
    exact hfit
  | case3 f hj =>
    refine ⟨h, fun c hc => ?_⟩
    exact absurd (List.getElem?_eq_some_iff.mp hc).1 hj

/-! ## The outer loop -/

/-- Where the line that begins at `start` ends. -/
def endIx (clusters : List Cluster) (f : Fit) (start : Nat) : Nat :=
  if f.j = clusters.length then clusters.length - 1
  else f.lastPreferred.getD (max f.lastFit (start + 1))

theorem endIx_bounds (h : Fits clusters preferred width x start f)
    (hstart : start + 1 < clusters.length) :
    start < endIx clusters f start ∧ endIx clusters f start < clusters.length := by
  have hlast : f.lastFit + 1 = f.j := h.lastFit
  have hbound : f.j ≤ clusters.length := h.bound
  rw [endIx]
  split
  · omega
  · cases hp : f.lastPreferred with
    | none =>
      rw [Option.getD_none]
      omega
    | some m =>
      obtain ⟨hafter, hlt, -⟩ := h.found m hp
      rw [Option.getD_some]
      omega

/-- A line ends at the last cluster, or at one that fits, or it is a single cluster. -/
theorem endIx_fits (h : Fits clusters preferred width x start f) :
    endIx clusters f start < f.j ∨ endIx clusters f start = start + 1 := by
  have hafter : start < f.j := h.after
  have hlast : f.lastFit + 1 = f.j := h.lastFit
  rw [endIx]
  split
  · omega
  · cases hp : f.lastPreferred with
    | none =>
      rw [Option.getD_none]
      omega
    | some m => exact .inl (h.found m hp).2.1

/-- Since positions do not decrease, every cluster that fits is before `j`. -/
theorem lt_of_fit (hpos : clusters.Pairwise fun c d => c.2 ≤ d.2) {c : Cluster} {m j : Nat}
    (hstop : ∀ d, clusters[j]? = some d → ¬ d.2 - x ≤ width) (hj : j < clusters.length)
    (hc : clusters[m]? = some c) (hfit : c.2 - x ≤ width) : m < j := by
  by_contra hge
  obtain ⟨hm, rfl⟩ := List.getElem?_eq_some_iff.mp hc
  have hle : clusters[j].2 ≤ clusters[m].2 := by
    rcases Nat.eq_or_lt_of_le (Nat.le_of_not_lt hge) with rfl | hlt
    · exact le_refl _
    · exact List.pairwise_iff_getElem.mp hpos j m hj hm hlt
  apply hstop _ (List.getElem?_eq_getElem hj)
  linarith

/-- **The range the outer loop adds.** -/
theorem isLine_endIx (hoff : clusters.Pairwise fun c d => c.1 < d.1)
    (hpos : clusters.Pairwise fun c d => c.2 ≤ d.2) {a b : Cluster}
    (ha : clusters[start]? = some a) (h : Fits clusters preferred width a.2 start f)
    (hstop : ∀ d, clusters[f.j]? = some d → ¬ d.2 - a.2 ≤ width)
    (hstart : start + 1 < clusters.length) (hb : clusters[endIx clusters f start]? = some b) :
    IsLine clusters preferred width ⟨a.1, b.1⟩ := by
  have hafter : start < endIx clusters f start := (endIx_bounds h hstart).1
  refine ⟨start, _, a, b, ha, hb, hafter, rfl, ?_, ?_⟩
  · rcases endIx_fits h with hlt | heq
    · exact .inl (h.fit _ b hafter hlt hb)
    · exact .inr heq
  · rintro hnot ⟨c, hmem, hac, hpref, hfit⟩
    have hj : f.j ≠ clusters.length := by
      intro hj
      rw [endIx, if_pos hj] at hnot
      omega
    obtain ⟨m, hm, rfl⟩ := List.mem_iff_getElem.mp hmem
    have hc : clusters[m]? = some clusters[m] := List.getElem?_eq_getElem hm
    have hlt : m < f.j := lt_of_fit hpos hstop (lt_of_le_of_ne h.bound hj) hc hfit
    have hgt : start < m := by
      obtain ⟨hs, rfl⟩ := List.getElem?_eq_some_iff.mp ha
      by_contra hle
      rcases Nat.eq_or_lt_of_le (Nat.le_of_not_lt hle) with rfl | hlt
      · exact lt_irrefl _ hac
      · exact lt_asymm hac (List.pairwise_iff_getElem.mp hoff m start hm hs hlt)
    rw [endIx, if_neg hj] at hb
    cases hp : f.lastPreferred with
    | none => exact absurd hpref (h.missed hp m _ hgt hlt hc)
    | some k =>
      rw [hp, Option.getD_some] at hb
      exact (h.found k hp).2.2 b hb

/-- **The loop ends**, with the lines from `start` on; every turn takes it further. -/
theorem breaksLoop_lines (hoff : clusters.Pairwise fun c d => c.1 < d.1)
    (hpos : clusters.Pairwise fun c d => c.2 ≤ d.2) {a : Cluster}
    (ha : clusters[start]? = some a) (hlast : clusters.getLast?.map (·.1) = some stop) :
    ∃ lines, (∀ fuel, clusters.length ≤ start + fuel → ∀ parts,
        breaksLoop clusters preferred width fuel start parts = some (parts ++ lines)) ∧
      Abut a.1 lines stop ∧ (∀ r ∈ lines, IsLine clusters preferred width r) ∧
      (start + 1 < clusters.length → lines ≠ []) := by
  have hlt : start < clusters.length := (List.getElem?_eq_some_iff.mp ha).1
  induction hn : clusters.length - start using Nat.strong_induction_on generalizing start a with
  | _ n ih =>
  by_cases hstart : start + 1 < clusters.length
  · have hfits : Fits clusters preferred width a.2 start _ := fits_start hstart
    obtain ⟨h, hstop⟩ := fitLoop_fits hfits
    obtain ⟨hgt, hend⟩ := endIx_bounds h hstart
    have hb := List.getElem?_eq_getElem hend
    obtain ⟨lines, hrun, habut, hlines, -⟩ := ih _ (by omega) hb hend rfl
    refine ⟨⟨a.1, _⟩ :: lines, fun fuel hfuel parts => ?_, ⟨rfl, ?_, habut⟩, ?_,
      fun _ => List.cons_ne_nil _ _⟩
    · cases fuel with
      | zero => omega
      | succ fuel =>
        rw [breaksLoop, if_pos hstart, ha]
        dsimp only
        rw [← endIx, hb]
        dsimp only
        rw [hrun fuel (by omega), List.append_assoc]
        rfl
    · obtain ⟨hs, rfl⟩ := List.getElem?_eq_some_iff.mp ha
      exact List.pairwise_iff_getElem.mp hoff start _ hs hend hgt
    · intro r hr
      rcases List.mem_cons.mp hr with rfl | hr
      · exact isLine_endIx hoff hpos ha h hstop hstart hb
      · exact hlines r hr
  · refine ⟨[], fun fuel hfuel parts => ?_, ?_, List.forall_mem_nil _, fun h => absurd h hstart⟩
    · cases fuel with
      | zero => omega
      | succ fuel => rw [breaksLoop, if_neg hstart, List.append_nil]
    · have hend : clusters.length - 1 = start := by omega
      rw [List.getLast?_eq_getElem?, hend, ha] at hlast
      exact Option.some.inj hlast

/-- **The ranges cover the line**, each fits or is a single cluster, and a line that does not end the
text breaks where it is preferred when it can. Fuel for every cluster is enough. -/
theorem measuredBreaks_lines (clusters : List Cluster) (preferred : Finset Nat) (width : ℚ)
    (hlen : 2 ≤ clusters.length) (hzero : clusters.head?.map (·.1) = some 0)
    (hoff : clusters.Pairwise fun c d => c.1 < d.1)
    (hpos : clusters.Pairwise fun c d => c.2 ≤ d.2) :
    ∃ lines stop, clusters.getLast?.map (·.1) = some stop ∧
      (∀ fuel, clusters.length ≤ fuel →
        measuredBreaks fuel clusters preferred (some width) = some lines) ∧
      lines ≠ [] ∧ Abut 0 lines stop ∧
      ∀ r ∈ lines, IsLine clusters preferred (max width 1) r := by
  cases clusters with
  | nil => cases hlen
  | cons a rest =>
    rw [List.head?_cons, Option.map_some, Option.some.injEq] at hzero
    have ha : (a :: rest)[0]? = some a := rfl
    have hlast : (a :: rest).getLast?.map (·.1) = some ((a :: rest).getLast (by simp)).1 := by
      rw [List.getLast?_eq_some_getLast (by simp)]
      rfl
    obtain ⟨lines, hrun, habut, hlines, hne⟩ :=
      @breaksLoop_lines _ preferred (max width 1) _ _ hoff hpos _ ha hlast
    have hne : lines ≠ [] := hne hlen
    refine ⟨lines, _, hlast, fun fuel hfuel => ?_, hne, hzero ▸ habut, hlines⟩
    rw [measuredBreaks, if_neg (Nat.not_lt.mpr hlen), hrun fuel (by omega), Option.map_some,
      List.nil_append, if_neg hne]

/-- A wide cluster, a preferred offset, and one that does not fit. -/
theorem sampleClusters_lines :
    ∃ lines stop, ([(0, 0), (4, 9), (5, 10), (7, 11), (8, 14)] : List Cluster).getLast?.map (·.1) =
        some stop ∧
      (∀ fuel, 5 ≤ fuel → measuredBreaks fuel [(0, 0), (4, 9), (5, 10), (7, 11), (8, 14)] {5}
        (some 3) = some lines) ∧
      lines ≠ [] ∧ Abut 0 lines stop ∧
      ∀ r ∈ lines, IsLine [(0, 0), (4, 9), (5, 10), (7, 11), (8, 14)] {5} (max 3 1) r :=
  measuredBreaks_lines _ _ _ (by decide) rfl (by decide) (by decide +kernel)

end Breaks
end Proof
end Diffz
