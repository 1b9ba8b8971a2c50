import Mathlib.Data.List.Pairwise
import Mathlib.Data.List.TakeWhile

/-!
# Binary search

The partition point of a list, by halving. It is the length of the part that satisfies the predicate
where that part comes first; elsewhere it says nothing.
-/

set_option autoImplicit false

universe u

namespace Diffz

variable {α : Type u} {p : α → Bool} {l : List α}

/-- The partition point is within `base ..= base + size`. -/
def bisectLoop (p : α → Bool) (l : List α) (base size : Nat) : Nat :=
  if 1 < size then
    bisectLoop p l (if l[base + size / 2]?.any p then base + size / 2 else base) (size - size / 2)
  else if l[base]?.any p then base + 1 else base
termination_by size

/-- `slice::partition_point`. -/
def bisect (p : α → Bool) (l : List α) : Nat := bisectLoop p l 0 l.length

theorem bisectLoop_eq {n base size : Nat} (hp : ∀ i, l[i]?.any p = true ↔ i < n) (hlow : base ≤ n)
    (hhigh : n ≤ base + size) : bisectLoop p l base size = n := by
  fun_induction bisectLoop p l base size with
  | case1 base size hsize ih =>
    by_cases hmid : base + size / 2 < n
    · have hpos := (hp _).mpr hmid
      rw [dif_pos hpos] at ih
      rw [if_pos hpos]
      exact ih hmid.le (by omega)
    · have hneg := mt (hp _).mp hmid
      rw [dif_neg hneg] at ih
      rw [if_neg hneg]
      exact ih hlow (by omega)
  | case2 base size hsize h =>
    have hlt : base < n := (hp base).mp h
    omega
  | case3 base size hsize h =>
    have hge : ¬ base < n := fun hlt => h ((hp base).mpr hlt)
    omega

/-- **The search finds the joint** of a part that satisfies the predicate and one that does not. -/
theorem bisect_append {a b : List α} (ha : ∀ x ∈ a, p x = true) (hb : ∀ x ∈ b, p x = false) :
    bisect p (a ++ b) = a.length := by
  refine bisectLoop_eq (fun i => ?_) (Nat.zero_le _) (by simp)
  rcases Nat.lt_or_ge i a.length with hi | hi
  · rw [List.getElem?_append_left hi, List.getElem?_eq_getElem hi, Option.any_some]
    exact iff_of_true (ha _ (List.getElem_mem hi)) hi
  · rw [List.getElem?_append_right hi]
    refine iff_of_false (fun h => ?_) (Nat.not_lt.mpr hi)
    obtain ⟨x, hx, hpx⟩ := (Option.any_eq_true _ _).mp h
    rw [hb x (List.mem_of_getElem? hx)] at hpx
    cases hpx

/-- In a list where what satisfies the predicate comes first, there is such a joint. -/
theorem bisect_split (h : l.Pairwise fun x y => p y = true → p x = true) :
    ∃ a b, l = a ++ b ∧ (∀ x ∈ a, p x = true) ∧ (∀ x ∈ b, p x = false) ∧
      bisect p l = a.length := by
  have hpart : ∃ a b, l = a ++ b ∧ (∀ x ∈ a, p x = true) ∧ (∀ x ∈ b, p x = false) := by
    induction l with
    | nil => exact ⟨[], [], rfl, List.forall_mem_nil _, List.forall_mem_nil _⟩
    | cons x l ih =>
      obtain ⟨hx, hl⟩ := List.pairwise_cons.mp h
      cases hpx : p x with
      | true =>
        obtain ⟨a, b, rfl, ha, hb⟩ := ih hl
        exact ⟨x :: a, b, rfl, List.forall_mem_cons.mpr ⟨hpx, ha⟩, hb⟩
      | false =>
        refine ⟨[], x :: l, rfl, List.forall_mem_nil _, List.forall_mem_cons.mpr ⟨hpx, ?_⟩⟩
        intro y hy
        cases hpy : p y with
        | false => rfl
        | true => exact absurd (hx y hy hpy) (by simp [hpx])
  obtain ⟨a, b, rfl, ha, hb⟩ := hpart
  exact ⟨a, b, rfl, ha, hb, bisect_append ha hb⟩

/-- The elements before the partition point are the ones that satisfy the predicate. -/
theorem lt_bisect_iff (h : l.Pairwise fun x y => p y = true → p x = true) {i : Nat} {x : α}
    (hx : l[i]? = some x) : i < bisect p l ↔ p x = true := by
  obtain ⟨a, b, rfl, ha, hb, hpoint⟩ := bisect_split h
  rw [hpoint]
  rcases Nat.lt_or_ge i a.length with hi | hi
  · rw [List.getElem?_append_left hi] at hx
    exact iff_of_true hi (ha x (List.mem_of_getElem? hx))
  · rw [List.getElem?_append_right hi] at hx
    refine iff_of_false (Nat.not_lt.mpr hi) ?_
    rw [hb x (List.mem_of_getElem? hx)]
    exact Bool.false_ne_true

theorem bisect_le_length (h : l.Pairwise fun x y => p y = true → p x = true) :
    bisect p l ≤ l.length := by
  obtain ⟨a, b, rfl, -, -, hpoint⟩ := bisect_split h
  rw [hpoint, List.length_append]
  exact Nat.le_add_right _ _

/-- A weaker predicate holds further. -/
theorem bisect_mono {q : α → Bool} (hp : l.Pairwise fun x y => p y = true → p x = true)
    (hq : l.Pairwise fun x y => q y = true → q x = true) (h : ∀ x, p x = true → q x = true) :
    bisect p l ≤ bisect q l := by
  by_contra hlt
  have hlt : bisect q l < bisect p l := Nat.lt_of_not_le hlt
  have hx := List.getElem?_eq_getElem (hlt.trans_le (bisect_le_length hp))
  have hpx := (lt_bisect_iff hp hx).mp hlt
  exact absurd ((lt_bisect_iff hq hx).mpr (h _ hpx)) (lt_irrefl _)

end Diffz
