import Mathlib.Data.List.TakeWhile
import Mathlib.Order.Bounds.Basic
import Mathlib.Logic.Function.Iterate

/-!
# Stops

Where a point may be taken to: a list in increasing order. Next to any point are the first stop behind
it and the last one before it, and going from one stop to the next passes all of them, in either
direction.
-/

set_option autoImplicit false

universe u v

namespace Diffz

variable {α : Type u} {β : Type v} [LinearOrder α] [LinearOrder β]

/-- The first stop behind a point, and the point itself where there is none. -/
def stopAfter (l : List α) (p : α) : α := (l.find? fun q => decide (p < q)).getD p

/-- The last stop before a point, and the point itself where there is none. -/
def stopBefore (l : List α) (p : α) : α := (l.reverse.find? fun q => decide (q < p)).getD p

variable {l m : List α} {p : α} {k : Nat}

/-! ## Parts of a list -/

theorem find_after_eq_none (h : ∀ q ∈ l, q ≤ p) : l.find? (fun q => decide (p < q)) = none := by
  apply List.find?_eq_none.mpr
  intro q hq
  simpa using h q hq

theorem find_before_eq_none (h : ∀ q ∈ l, p ≤ q) :
    l.reverse.find? (fun q => decide (q < p)) = none := by
  apply List.find?_eq_none.mpr
  intro q hq
  simpa using h q (List.mem_reverse.mp hq)

theorem stopAfter_self (h : ∀ q ∈ l, q ≤ p) : stopAfter l p = p := by
  rw [stopAfter, find_after_eq_none h, Option.getD_none]

theorem stopBefore_self (h : ∀ q ∈ l, p ≤ q) : stopBefore l p = p := by
  rw [stopBefore, find_before_eq_none h, Option.getD_none]

theorem stopAfter_append_right (h : ∀ q ∈ l, q ≤ p) : stopAfter (l ++ m) p = stopAfter m p := by
  rw [stopAfter, List.find?_append, find_after_eq_none h, Option.none_or, stopAfter]

theorem stopBefore_append_left (h : ∀ q ∈ m, p ≤ q) : stopBefore (l ++ m) p = stopBefore l p := by
  rw [stopBefore, List.reverse_append, List.find?_append, find_before_eq_none h, Option.none_or,
    stopBefore]

theorem stopAfter_append_left (h : ∃ q ∈ l, p < q) : stopAfter (l ++ m) p = stopAfter l p := by
  obtain ⟨q, hq, hlt⟩ := h
  have hsome : (l.find? fun q => decide (p < q)).isSome :=
    List.find?_isSome.mpr ⟨q, hq, by simpa using hlt⟩
  obtain ⟨r, hr⟩ := Option.isSome_iff_exists.mp hsome
  rw [stopAfter, List.find?_append, hr, Option.some_or, stopAfter, hr]

theorem stopBefore_append_right (h : ∃ q ∈ m, q < p) : stopBefore (l ++ m) p = stopBefore m p := by
  obtain ⟨q, hq, hlt⟩ := h
  have hsome : (m.reverse.find? fun q => decide (q < p)).isSome :=
    List.find?_isSome.mpr ⟨q, List.mem_reverse.mpr hq, by simpa using hlt⟩
  obtain ⟨r, hr⟩ := Option.isSome_iff_exists.mp hsome
  rw [stopBefore, List.reverse_append, List.find?_append, hr, Option.some_or, stopBefore, hr]

theorem stopAfter_map {f : α → β} (hf : ∀ x y, f x < f y ↔ x < y) (l : List α) (p : α) :
    stopAfter (l.map f) (f p) = f (stopAfter l p) := by
  rw [stopAfter, List.find?_map, Option.getD_map]
  simp [Function.comp_def, hf, stopAfter]

theorem stopBefore_map {f : α → β} (hf : ∀ x y, f x < f y ↔ x < y) (l : List α) (p : α) :
    stopBefore (l.map f) (f p) = f (stopBefore l p) := by
  rw [stopBefore, ← List.map_reverse, List.find?_map, Option.getD_map]
  simp [Function.comp_def, hf, stopBefore]

/-! ## From stop to stop -/

theorem stopAfter_split (hs : (l ++ p :: m).Pairwise (· < ·)) :
    stopAfter (l ++ p :: m) p = m.head?.getD p := by
  obtain ⟨-, hright, hcross⟩ := List.pairwise_append.mp hs
  obtain ⟨hnext, -⟩ := List.pairwise_cons.mp hright
  rw [stopAfter_append_right fun q hq => (hcross q hq p List.mem_cons_self).le]
  cases m with
  | nil => simp [stopAfter]
  | cons q m => simp [stopAfter, hnext q List.mem_cons_self]

theorem stopBefore_split (hs : (l ++ p :: m).Pairwise (· < ·)) :
    stopBefore (l ++ p :: m) p = l.getLast?.getD p := by
  obtain ⟨-, hright, hcross⟩ := List.pairwise_append.mp hs
  obtain ⟨hnext, -⟩ := List.pairwise_cons.mp hright
  have hle : ∀ q ∈ p :: m, p ≤ q := by
    intro q hq
    rcases List.mem_cons.mp hq with rfl | hq
    · exact le_rfl
    · exact (hnext q hq).le
  rw [stopBefore_append_left hle]
  rcases List.eq_nil_or_concat l with rfl | ⟨l, q, rfl⟩
  · rfl
  · have hlt : q < p := hcross q (by simp) p List.mem_cons_self
    simp [stopBefore, hlt]

section Sorted

variable (hs : l.Pairwise (· < ·))

include hs

theorem stopAfter_stop (hk : l[k]? = some p) :
    l[min (k + 1) (l.length - 1)]? = some (stopAfter l p) := by
  obtain ⟨hlt, rfl⟩ := List.getElem?_eq_some_iff.mp hk
  have hsplit : l = l.take k ++ l[k] :: l.drop (k + 1) := by simp
  have hafter : stopAfter l l[k] = (l.drop (k + 1)).head?.getD l[k] := by
    have h := stopAfter_split (hsplit ▸ hs)
    rwa [← hsplit] at h
  rw [hafter, List.head?_drop]
  by_cases hlast : k + 1 < l.length
  · rw [Nat.min_eq_left (by omega), List.getElem?_eq_getElem hlast, Option.getD_some]
  · have hnone : l[k + 1]? = none := List.getElem?_eq_none (by omega)
    rw [hnone, Option.getD_none, ← hk, show min (k + 1) (l.length - 1) = k by omega]

theorem stopBefore_stop (hk : l[k]? = some p) : l[k - 1]? = some (stopBefore l p) := by
  obtain ⟨hlt, rfl⟩ := List.getElem?_eq_some_iff.mp hk
  have hsplit : l = l.take k ++ l[k] :: l.drop (k + 1) := by simp
  have hbefore : stopBefore l l[k] = (l.take k).getLast?.getD l[k] := by
    have h := stopBefore_split (hsplit ▸ hs)
    rwa [← hsplit] at h
  rw [hbefore, List.getLast?_take]
  cases k with
  | zero => simp
  | succ k => simp [List.getElem?_eq_getElem (show k < l.length by omega)]

/-- Going on from a stop passes every stop behind it. -/
theorem walk_after (hk : l[k]? = some p) (j : Nat) :
    l[min (k + j) (l.length - 1)]? = some ((stopAfter l)^[j] p) := by
  induction j with
  | zero =>
    obtain ⟨hlt, -⟩ := List.getElem?_eq_some_iff.mp hk
    rw [Nat.add_zero, Nat.min_eq_left (by omega), hk, Function.iterate_zero, id]
  | succ j ih =>
    rw [Function.iterate_succ_apply', ← stopAfter_stop hs ih]
    congr 1
    omega

/-- And going back every stop before it. -/
theorem walk_before (hk : l[k]? = some p) (j : Nat) :
    l[k - j]? = some ((stopBefore l)^[j] p) := by
  induction j with
  | zero => rw [Nat.sub_zero, hk, Function.iterate_zero, id]
  | succ j ih =>
    rw [Function.iterate_succ_apply', ← stopBefore_stop hs ih, Nat.sub_succ, Nat.pred_eq_sub_one]

end Sorted

/-! ## In order -/

section Sorted

variable (hs : l.Pairwise (· < ·))

include hs

theorem find_before_eq (p : α) : l.reverse.find? (fun q => decide (q < p)) =
    (l.takeWhile fun q => decide (q < p)).getLast? := by
  have hle : ∀ q ∈ l.dropWhile fun q => decide (q < p), p ≤ q := by
    intro q hq
    have hrest := hs.sublist (List.dropWhile_sublist fun q => decide (q < p))
    have hhead := List.head?_dropWhile_not (fun q => decide (q < p)) l
    cases hdrop : l.dropWhile fun q => decide (q < p) with
    | nil => simp [hdrop] at hq
    | cons r rest =>
      rw [hdrop] at hq hhead hrest
      have hr : p ≤ r := by simpa using hhead
      rcases List.mem_cons.mp hq with rfl | hq
      · exact hr
      · exact hr.trans ((List.pairwise_cons.mp hrest).1 q hq).le
  conv_lhs => rw [← List.takeWhile_append_dropWhile (p := fun q => decide (q < p)) (l := l)]
  rw [List.reverse_append, List.find?_append, find_before_eq_none hle, Option.none_or]
  rcases List.eq_nil_or_concat (l.takeWhile fun q => decide (q < p)) with hnil | ⟨m, q, hm⟩
  · simp [hnil]
  · have hmem : q ∈ l.takeWhile fun q => decide (q < p) := by simp [hm]
    have hq : q < p := by simpa using List.mem_takeWhile_imp hmem
    simp [hm, hq]

theorem stopBefore_isGreatest (h : ∃ q ∈ l, q < p) :
    IsGreatest {q | q ∈ l ∧ q < p} (stopBefore l p) := by
  obtain ⟨q, hq, hlt⟩ := h
  have hsome : (l.reverse.find? fun q => decide (q < p)).isSome :=
    List.find?_isSome.mpr ⟨q, List.mem_reverse.mpr hq, by simpa using hlt⟩
  obtain ⟨r, hr⟩ := Option.isSome_iff_exists.mp hsome
  have hstop : stopBefore l p = r := by rw [stopBefore, hr, Option.getD_some]
  obtain ⟨hrp, m, rest, heq, hall⟩ := List.find?_eq_some_iff_append.mp hr
  have hl : l = rest.reverse ++ r :: m.reverse := by
    rw [← List.reverse_reverse l, heq, List.reverse_append, List.reverse_cons]
    simp
  rw [hstop]
  refine ⟨⟨by simp [hl], by simpa using hrp⟩, ?_⟩
  rintro x ⟨hx, hxp⟩
  rw [hl] at hx hs
  rcases List.mem_append.mp hx with hx | hx
  · exact ((List.pairwise_append.mp hs).2.2 x hx r List.mem_cons_self).le
  rcases List.mem_cons.mp hx with rfl | hx
  · exact le_rfl
  · -- What is behind it in the list is not before the point.
    have hnot := hall x (List.mem_reverse.mp hx)
    simp [hxp] at hnot

end Sorted

end Diffz
