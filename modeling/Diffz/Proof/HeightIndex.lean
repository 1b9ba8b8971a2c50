import Mathlib.Algebra.Order.BigOperators.Group.List
import Mathlib.Tactic.Linarith
import Diffz.Core.HeightIndex

/-!
# The height index answers like sums

Every update keeps the tree the tree of the heights (`Sound`), so a prefix is the sum of the first
heights. The search goes down the powers of two: the row it stands before starts at `y` or above it
on the page, and what is left to search begins below.
-/

set_option autoImplicit false

namespace Diffz
namespace Proof
namespace HeightIndex

open Diffz.HeightIndex
open Fenwick

variable {h h' : Diffz.HeightIndex} {values tree : List ℚ} {w i p n : Nat} {y v delta sum : ℚ}

/-- The cells are within a word, and the tree is that of the heights. -/
structure Sound (h : Diffz.HeightIndex) : Prop where
  fits : h.tree.length ≤ 2 ^ 63
  holds : Holds 64 h.values h.tree

/-! ## Updates -/

/-- The cells below `i` have been brought up to date, or do not have the element. -/
def Updated (values tree : List ℚ) (p : Nat) (v : ℚ) (i : Nat) : Prop :=
  tree.length = values.length + 1 ∧ ∀ j, 0 < j → j ≤ values.length →
    tree[j]? = some (if Covers 64 j p ∧ i ≤ j then block 64 values j
      else block 64 (values.set p v) j)

theorem updated_step (hp : p < values.length) (hfits : tree.length ≤ 2 ^ 63)
    (hc : Covers 64 i p) (hi : i < tree.length) (hup : Updated values tree p v i) :
    Updated values (tree.modify i (· + (v - values[p]))) p v (i + lowBit 64 i) := by
  obtain ⟨hlen, hcells⟩ := hup
  refine ⟨by rw [List.length_modify, hlen], fun j hj hjn => ?_⟩
  rw [List.getElem?_modify, hcells j hj hjn]
  have hlow : 0 < lowBit 64 i := lowBit_pos (Nat.zero_lt_of_lt hc.2) (by omega)
  rcases Nat.lt_trichotomy i j with hlt | rfl | hlt
  · have hiff : (Covers 64 j p ∧ i ≤ j) ↔ (Covers 64 j p ∧ i + lowBit 64 i ≤ j) :=
      and_congr_right fun hcj => ⟨fun _ => hc.next_le hcj hlt (by omega), fun _ => hlt.le⟩
    simp only [hlt.ne, if_false, hiff, Option.map_eq_map, Option.map_id']
  · have hnot : ¬ (Covers 64 i p ∧ i + lowBit 64 i ≤ i) := fun hle => absurd hle.2 (by omega)
    rw [if_neg hnot, if_pos ⟨hc, le_refl i⟩, block_set values hp v hjn, if_pos hc]
    simp
  · have hnot : ¬ (Covers 64 j p ∧ i ≤ j) := fun hle => absurd hle.2 (by omega)
    have hnot' : ¬ (Covers 64 j p ∧ i + lowBit 64 i ≤ j) := fun hle => absurd hle.2 (by omega)
    rw [if_neg hnot, if_neg hnot']
    simp [hlt.ne']

/-- **The loop brings every cell up to date.** -/
theorem addLoop_updated (hp : p < values.length) (hfits : tree.length ≤ 2 ^ 63)
    (hc : Covers 64 i p) (hup : Updated values tree p v i) :
    ∃ tree', addLoop (v - values[p]) i tree = some tree' ∧ Holds 64 (values.set p v) tree' := by
  induction hn : tree.length - i using Nat.strong_induction_on generalizing i tree with
  | _ n ih =>
    rw [addLoop]
    split
    · rename_i hi
      have hlow : 0 < lowBit 64 i := lowBit_pos (Nat.zero_lt_of_lt hc.2) (by omega)
      have hle := lowBit_le (w := 64) i
      rw [if_neg hlow.ne']
      exact ih _ (by rw [List.length_modify]; omega) (by rwa [List.length_modify])
        (hc.next (by omega)) (updated_step hp hfits hc hi hup) rfl
    · rename_i hi
      obtain ⟨hlen, hcells⟩ := hup
      refine ⟨tree, rfl, by rw [hlen, List.length_set], fun j hj hjn => ?_⟩
      rw [List.length_set] at hjn
      rw [hcells j hj hjn, if_neg fun hle => absurd hle.2 (by omega)]

theorem set_sound (hs : Sound h) (hp : p < h.values.length) (v : ℚ) :
    ∃ h', h.set p v = some h' ∧ Sound h' ∧ h'.values = h.values.set p v := by
  obtain ⟨hfits, hlen, hcells⟩ := hs
  have hlow : 0 < lowBit 64 (p + 1) := lowBit_pos p.succ_pos (by omega)
  have hup : Updated h.values h.tree p v (p + 1) := by
    refine ⟨hlen, fun j hj hjn => ?_⟩
    rw [hcells j hj hjn, block_set h.values hp v hjn]
    by_cases hcj : Covers 64 j p
    · rw [if_pos hcj, if_pos ⟨hcj, hcj.2⟩]
    · rw [if_neg hcj, if_neg fun hle => hcj hle.1]
  obtain ⟨tree, htree, hholds⟩ := addLoop_updated hp hfits (covers_start hlow) hup
  refine ⟨⟨h.values.set p v, tree⟩, ?_, ⟨?_, hholds⟩, rfl⟩
  · simp only [Diffz.HeightIndex.set, List.getElem?_eq_getElem hp, htree, Option.map_some]
  · rw [hholds.1, List.length_set]
    omega

/-- The heights after an update: what is rejected changes none. -/
def updated (heights : List ℚ) (index : Nat) : Option ℚ → List ℚ
  | some v => if 0 < v then heights.set index v else heights
  | none => heights

theorem update_sound (hs : Sound h) (index : Nat) (height : Option ℚ) :
    ∃ answer h', h.update index height = some (answer, h') ∧ Sound h' ∧
      h'.values = updated h.values index height ∧ (answer ≠ .ok () → h' = h) := by
  cases height with
  | none => exact ⟨_, h, rfl, hs, rfl, fun _ => rfl⟩
  | some v =>
    rw [update]
    split
    · rename_i hreject
      refine ⟨_, h, rfl, hs, ?_, fun _ => rfl⟩
      rw [updated]
      split
      · rename_i hv
        rcases hreject with hout | hle
        · rw [List.set_eq_of_length_le hout]
        · exact absurd hv hle.not_gt
      · rfl
    · rename_i haccept
      simp only [ge_iff_le, not_or, not_le] at haccept
      obtain ⟨h', hset, hs', hvalues⟩ := set_sound hs haccept.1 v
      refine ⟨.ok (), h', by rw [hset]; rfl, hs', ?_, fun hne => absurd rfl hne⟩
      rw [hvalues, updated, if_pos haccept.2]

/-- The loop of `new` gives the rows from `i` on their height. -/
theorem setAll_sound {value : ℚ} {count : Nat} (hs : Sound h)
    (hlen : i + count = h.values.length) : ∃ h', setAll value count i h = some h' ∧ Sound h' ∧
      h'.values = h.values.take i ++ List.replicate count value := by
  induction count generalizing i h with
  | zero => exact ⟨h, rfl, hs, by simpa using hlen.ge⟩
  | succ count ih =>
    obtain ⟨h₁, hset, hs₁, hvalues₁⟩ := set_sound hs (p := i) (by omega) value
    have hrest : i + 1 + count = h₁.values.length := by
      rw [hvalues₁, List.length_set]
      omega
    obtain ⟨h', hall, hs', hvalues⟩ := ih hs₁ hrest
    refine ⟨h', by rw [setAll, hset, Option.bind_some, hall], hs', ?_⟩
    have htake : (h.values.set i value).take (i + 1) = h.values.take i ++ [value] := by
      rw [List.take_succ_eq_append_getElem (by rw [List.length_set]; omega),
        List.take_set_of_le (le_refl i), List.getElem_set_self]
    rw [hvalues, hvalues₁, htake, List.append_assoc, List.replicate_succ]
    rfl

theorem new_sound {count : Nat} (hcount : count < maxCells) (estimate : Option ℚ) :
    ∃ h, new count estimate = some h ∧ Sound h ∧
      h.values = List.replicate count (initial estimate) := by
  have hmax : maxCells < 2 ^ 63 := by decide
  have hzero : Sound ⟨List.replicate count 0, List.replicate (count + 1) 0⟩ := by
    refine ⟨by rw [List.length_replicate]; omega, by simp, fun j hj hjn => ?_⟩
    rw [List.length_replicate] at hjn
    rw [List.getElem?_replicate, if_pos (by omega), block]
    simp
  have hrows : 0 + count = (List.replicate count (0 : ℚ)).length := by simp
  obtain ⟨h, hall, hs, hvalues⟩ := @setAll_sound _ 0 (initial estimate) count hzero hrows
  refine ⟨h, ?_, hs, by simpa using hvalues⟩
  rw [new, if_neg (by omega), hall]

/-! ## Prefixes -/

theorem sumLoop_eq (hs : Sound h) (hi : i ≤ h.values.length) :
    sumLoop h.tree i sum = some (sum + (h.values.take i).sum) := by
  obtain ⟨hfits, hlen, hcells⟩ := hs
  induction i using Nat.strong_induction_on generalizing sum with
  | _ i ih =>
    rw [sumLoop]
    split
    · rename_i hzero
      rw [hzero, List.take_zero, List.sum_nil, add_zero]
    · rename_i hpos
      have hlow : 0 < lowBit 64 i := lowBit_pos (by omega) (by omega)
      rw [hcells i (by omega) hi]
      simp only [hlow.ne', if_false]
      rw [ih (i - lowBit 64 i) (by omega) (by omega), ← sum_take_block (w := 64) h.values i]
      congr 1
      abel

/-- **A prefix is the sum of the first heights.** -/
theorem prefixSum_eq (hs : Sound h) (k : Nat) : h.prefixSum k = some (h.values.take k).sum := by
  have htake : h.values.take (min k h.values.length) = h.values.take k := by
    rw [← List.take_take, List.take_length]
  rw [prefixSum, sumLoop_eq hs (min_le_right ..), zero_add, htake]

theorem total_eq (hs : Sound h) : h.total = some h.values.sum := by
  rw [total, prefixSum_eq hs, List.take_length]

/-! ## The search -/

/-- The first power of two that is not below the length. -/
theorem startBit_eq {len bits k : Nat} (hlen : len ≤ 2 ^ (k + bits)) :
    ∃ e, startBit len (bits + 1) (2 ^ k) = some (2 ^ e) ∧ len ≤ 2 ^ e := by
  induction bits generalizing k with
  | zero => exact ⟨k, by rw [startBit, if_neg (by simpa using hlen)], hlen⟩
  | succ bits ih =>
    rw [startBit]
    split
    · rw [← pow_succ]
      exact ih (by rwa [Nat.add_right_comm, Nat.add_assoc])
    · rename_i hle
      exact ⟨k, rfl, not_lt.mp hle⟩

/-- The row that was found begins at `y` or before, and the next one does not. -/
def Found (values : List ℚ) (y : ℚ) (r b : Nat) : Prop :=
  r ≤ values.length ∧ (values.take r).sum ≤ y ∧
    (values.length < r + b ∨ y < (values.take (r + b)).sum)

/-- One bit less to search. -/
theorem found_halved (hs : Sound h) {e index : Nat} (hdvd : 2 ^ (e + 1) ∣ index)
    (hfound : Found h.values y index (2 ^ (e + 1))) :
    ∃ index', 2 ^ e ∣ index' ∧ Found h.values y index' (2 ^ e) ∧
      descend h.tree y (2 ^ e) index (h.values.take index).sum =
        descend h.tree y (2 ^ e / 2) index' (h.values.take index').sum := by
  obtain ⟨hfits, hlen, hcells⟩ := hs
  obtain ⟨hle, hy, hstop⟩ := hfound
  have hpos := Nat.two_pow_pos e
  have hdvd' : 2 ^ e ∣ index := (Nat.pow_dvd_pow 2 (Nat.le_succ e)).trans hdvd
  rw [descend, if_neg hpos.ne']
  by_cases hout : h.values.length < index + 2 ^ e
  · rw [List.getElem?_eq_none (by omega)]
    exact ⟨index, hdvd', ⟨hle, hy, .inl hout⟩, rfl⟩
  · -- The cell at the next index is the block from this one on.
    have hnot : ¬ 2 ^ (e + 1) ∣ index + 2 ^ e := by
      intro hd
      have hself := (Nat.dvd_add_right hdvd).mp hd
      have := Nat.le_of_dvd hpos hself
      rw [pow_succ] at this
      omega
    have hlow : lowBit 64 (index + 2 ^ e) = 2 ^ e :=
      lowBit_eq (by omega) (by omega) ((Nat.dvd_add_right hdvd').mpr (Nat.dvd_refl _)) hnot
    have hsum := sum_take_block (w := 64) h.values (index + 2 ^ e)
    rw [hlow, Nat.add_sub_cancel] at hsum
    rw [hcells (index + 2 ^ e) (by omega) (by omega)]
    dsimp only
    rw [hsum]
    split
    · rename_i hbelow
      refine ⟨index + 2 ^ e, (Nat.dvd_add_right hdvd').mpr (Nat.dvd_refl _), ⟨?_, hbelow, ?_⟩, rfl⟩
      · exact not_lt.mp hout
      · rwa [Nat.add_assoc, ← Nat.two_mul, Nat.mul_comm, ← pow_succ]
    · rename_i habove
      exact ⟨index, hdvd', ⟨hle, hy, .inr (not_le.mp habove)⟩, rfl⟩

theorem descend_found (hs : Sound h) {e index : Nat} (hdvd : 2 ^ (e + 1) ∣ index)
    (hfound : Found h.values y index (2 ^ (e + 1))) :
    Found h.values y (descend h.tree y (2 ^ e) index (h.values.take index).sum) 1 := by
  induction e generalizing index with
  | zero =>
    obtain ⟨index', -, hfound', heq⟩ := found_halved hs hdvd hfound
    rw [heq, descend]
    simpa using hfound'
  | succ e ih =>
    obtain ⟨index', hdvd', hfound', heq⟩ := found_halved hs hdvd hfound
    rw [heq, pow_succ, Nat.mul_div_cancel _ (by omega)]
    exact ih hdvd' hfound'

/-! ## Locating -/

/-- Every row has a height. -/
def Positive (values : List ℚ) : Prop := ∀ v ∈ values, 0 < v

theorem sum_take_le (hpos : Positive values) (k : Nat) : (values.take k).sum ≤ values.sum := by
  have hrest : 0 ≤ (values.drop k).sum :=
    List.sum_nonneg fun v hv => (hpos v (List.mem_of_mem_drop hv)).le
  have hsplit := congrArg List.sum (List.take_append_drop k values)
  rw [List.sum_append] at hsplit
  linarith

theorem locate_found (hs : Sound h) (hne : h.values ≠ []) (hpos : Positive h.values) (y : ℚ) :
    ∃ r, Found h.values (clamped (some y) h.values.sum) r 1 ∧
      h.locate (some y) = (h.values[min r (h.values.length - 1)]?).map fun height =>
        (min r (h.values.length - 1), min (max (clamped (some y) h.values.sum -
          (h.values.take (min r (h.values.length - 1))).sum) 0) height) := by
  have hfits : h.tree.length ≤ 2 ^ (0 + 63) := hs.fits
  obtain ⟨e, hbit, hlen⟩ := startBit_eq hfits
  have hsum : 0 ≤ h.values.sum := List.sum_nonneg fun v hv => (hpos v hv).le
  have hstart : Found h.values (clamped (some y) h.values.sum) 0 (2 ^ (e + 1)) := by
    refine ⟨Nat.zero_le _, ?_, .inl ?_⟩
    · rw [List.take_zero, List.sum_nil]
      exact le_min (le_max_right y 0) hsum
    · have := hs.holds.1
      rw [pow_succ]
      omega
  have hfound := descend_found hs (Nat.dvd_zero _) hstart
  refine ⟨_, hfound, ?_⟩
  rw [locate, if_neg hne, total_eq hs]
  rw [pow_zero] at hbit
  simp only [Option.bind_eq_bind, Option.bind_some, hbit, prefixSum_eq hs, List.take_zero,
    List.sum_nil, Option.pure_def]
  cases h.values[min (descend h.tree (clamped (some y) h.values.sum) (2 ^ e) 0 0)
    (h.values.length - 1)]? with
  | none => rfl
  | some height => rfl

/-- **Where a position is.** -/
theorem locate_eq (hs : Sound h) (hne : h.values ≠ []) (hpos : Positive h.values) (y : ℚ) :
    ∃ i off, ∃ hi : i < h.values.length, h.locate (some y) = some (i, off) ∧
      (y < 0 → i = 0 ∧ off = 0) ∧
      (0 ≤ y → y < h.values.sum →
        (h.values.take i).sum + off = y ∧ 0 ≤ off ∧ off < h.values[i]) ∧
      (h.values.sum ≤ y → i + 1 = h.values.length ∧ off = h.values[i]) := by
  obtain ⟨r, ⟨hle, hbefore, hafter⟩, hlocate⟩ := locate_found hs hne hpos y
  have hlen := List.length_pos_of_ne_nil hne
  have hi : min r (h.values.length - 1) < h.values.length := by omega
  rw [List.getElem?_eq_getElem hi, Option.map_some] at hlocate
  refine ⟨_, _, hi, hlocate, ?_, ?_, ?_⟩
  · intro hy
    have hzero : clamped (some y) h.values.sum = 0 := by
      rw [clamped, max_eq_right hy.le]
      exact min_eq_left (List.sum_nonneg fun v hv => (hpos v hv).le)
    rw [hzero] at hbefore ⊢
    have hr : r = 0 := by
      by_contra hr
      have hsum := List.sum_pos (h.values.take r) (fun v hv => hpos v (List.mem_of_mem_take hv))
        (by simp [hr, hne])
      exact absurd hbefore hsum.not_ge
    subst hr
    refine ⟨Nat.zero_min _, ?_⟩
    have hfirst := hpos _ (List.getElem_mem hi)
    simp only [Nat.zero_min, List.take_zero, List.sum_nil, sub_zero, max_self]
    exact min_eq_left (by simpa using hfirst.le)
  · intro hy hlt
    have hclamped : clamped (some y) h.values.sum = y := by
      rw [clamped, max_eq_left hy, min_eq_left hlt.le]
    rw [hclamped] at hbefore hafter ⊢
    have hr : r < h.values.length := by
      by_contra hr
      rw [List.take_of_length_le (by omega)] at hbefore
      exact absurd hlt hbefore.not_gt
    have hmin : min r (h.values.length - 1) = r := by omega
    have hnext := hafter.resolve_left (by omega)
    rw [List.take_succ_eq_append_getElem hr, List.sum_append, List.sum_singleton] at hnext
    simp only [hmin]
    have hoff : min (max (y - (h.values.take r).sum) 0) h.values[r] = y - (h.values.take r).sum := by
      rw [max_eq_left (by linarith), min_eq_left (by linarith)]
    rw [hoff]
    exact ⟨by linarith, by linarith, by linarith⟩
  · intro hy
    have hsum : 0 ≤ h.values.sum := List.sum_nonneg fun v hv => (hpos v hv).le
    have hclamped : clamped (some y) h.values.sum = h.values.sum := by
      rw [clamped, max_eq_left (hsum.trans hy), min_eq_right hy]
    rw [hclamped] at hafter ⊢
    -- No prefix is more than the whole, so the search ends after the last row.
    have hr : h.values.length ≤ r := by
      by_contra hr
      exact absurd (hafter.resolve_left (by omega)) (sum_take_le hpos _).not_gt
    have hmin : min r (h.values.length - 1) = h.values.length - 1 := by omega
    have hlast : (h.values.take (h.values.length - 1)).sum + h.values[h.values.length - 1] =
        h.values.sum := by
      rw [← List.sum_singleton (x := h.values[h.values.length - 1]), ← List.sum_append,
        ← List.take_succ_eq_append_getElem (by omega), Nat.sub_add_cancel hlen, List.take_length]
    have hheight := hpos _ (List.getElem_mem (n := h.values.length - 1) (by omega))
    simp only [hmin]
    refine ⟨Nat.sub_add_cancel hlen, ?_⟩
    rw [max_eq_left (by linarith), min_eq_right (by linarith)]

/-! ## Runs -/

theorem updated_pos (hpos : Positive values) (index : Nat) (height : Option ℚ) :
    Positive (updated values index height) := by
  cases height with
  | none => exact hpos
  | some v =>
    rw [updated]
    split
    · rename_i hv
      intro u hu
      rcases List.mem_or_eq_of_mem_set hu with hu | rfl
      · exact hpos u hu
      · exact hv
    · exact hpos

/-- The heights after updates, on a list of them. -/
def heightsAfter (heights : List ℚ) (us : List (Nat × Option ℚ)) : List ℚ :=
  us.foldl (fun heights u => updated heights u.1 u.2) heights

theorem heightsAfter_length (heights : List ℚ) (us : List (Nat × Option ℚ)) :
    (heightsAfter heights us).length = heights.length := by
  induction us generalizing heights with
  | nil => rfl
  | cons u us ih =>
    have hstep : (updated heights u.1 u.2).length = heights.length := by
      unfold updated
      split
      · split
        · exact List.length_set
        · rfl
      · rfl
    exact (ih _).trans hstep

theorem run_sound (hs : Sound h) (hpos : Positive h.values) (us : List (Nat × Option ℚ)) :
    ∃ h', system.run h us = some h' ∧ Sound h' ∧ Positive h'.values ∧
      h'.values = heightsAfter h.values us := by
  induction us generalizing h with
  | nil => exact ⟨h, rfl, hs, hpos, rfl⟩
  | cons u us ih =>
    obtain ⟨answer, h₁, hupdate, hs₁, hvalues, -⟩ := update_sound hs u.1 u.2
    have hpos₁ : Positive h₁.values := by
      rw [hvalues]
      exact updated_pos hpos u.1 u.2
    obtain ⟨h', hrun, hs', hpos', hvalues'⟩ := ih hs₁ hpos₁
    refine ⟨h', ?_, hs', hpos', by rw [hvalues', hvalues]; rfl⟩
    have hstep : system.step h u = some h₁ := congrArg (Option.map Prod.snd) hupdate
    rw [Lts.run, hstep]
    exact hrun

/-- **The index answers like plain sums**, after any updates. -/
theorem answers_like_sums {count : Nat} (hcount : count < maxCells) {estimate : ℚ}
    (hestimate : 0 < estimate) (us : List (Nat × Option ℚ)) :
    ∃ h₀ h, new count (some estimate) = some h₀ ∧ system.run h₀ us = some h ∧
      h.values = heightsAfter (List.replicate count estimate) us ∧
      (∀ k, h.prefixSum k = some (h.values.take (min k count)).sum) ∧
      h.total = some h.values.sum ∧
      (h.values ≠ [] → ∀ y, ∃ i off, ∃ hi : i < h.values.length,
        h.locate (some y) = some (i, off) ∧
        (y < 0 → i = 0 ∧ off = 0) ∧
        (0 ≤ y → y < h.values.sum →
          (h.values.take i).sum + off = y ∧ 0 ≤ off ∧ off < h.values[i]) ∧
        (h.values.sum ≤ y → i + 1 = h.values.length ∧ off = h.values[i])) ∧
      ∀ index height answer h', h.update index height = some (answer, h') → answer ≠ .ok () →
        h' = h := by
  obtain ⟨h₀, hnew, hs₀, hvalues₀⟩ := new_sound hcount (some estimate)
  have hinitial : initial (some estimate) = estimate := if_pos hestimate
  rw [hinitial] at hvalues₀
  have hpos₀ : Positive h₀.values := by
    rw [hvalues₀]
    intro v hv
    rwa [List.eq_of_mem_replicate hv]
  obtain ⟨h, hrun, hs, hpos, hvalues⟩ := run_sound hs₀ hpos₀ us
  have hlen : h.values.length = count := by
    rw [hvalues, hvalues₀, heightsAfter_length, List.length_replicate]
  refine ⟨h₀, h, hnew, hrun, by rw [hvalues, hvalues₀], fun k => ?_, total_eq hs,
    fun hne y => locate_eq hs hne hpos y, ?_⟩
  · rw [prefixSum_eq hs, ← hlen, ← List.take_take, List.take_length]
  · intro index height answer h' hupdate hne
    obtain ⟨answer', h'', hupdate', -, -, hsame⟩ := update_sound hs index height
    obtain ⟨rfl, rfl⟩ := Prod.mk.inj (Option.some.inj (hupdate.symm.trans hupdate'))
    exact hsame hne

/-- Three rows, one of which is measured; the other two updates are rejected. -/
theorem measuredRow_answers : ∃ h₀ h, new 3 (some 20) = some h₀ ∧
    system.run h₀ [(1, some 5), (7, some 1), (0, none)] = some h ∧ h.values = [20, 5, 20] ∧
      h.prefixSum 2 = some 25 ∧ h.total = some 45 := by
  obtain ⟨h₀, h, hnew, hrun, hvalues, hsums, htotal, -, -⟩ :=
    @answers_like_sums 3 (by decide) 20 (by decide +kernel) [(1, some 5), (7, some 1), (0, none)]
  have hvalues : h.values = [20, 5, 20] := hvalues.trans (by decide +kernel)
  refine ⟨h₀, h, hnew, hrun, hvalues, ?_, ?_⟩
  · rw [hsums, hvalues]
    decide +kernel
  · rw [htotal, hvalues]
    decide +kernel

end HeightIndex
end Proof
end Diffz
