import Mathlib.Algebra.BigOperators.Group.List.Basic
import Mathlib.Data.Nat.Bitwise
import Mathlib.Tactic.Abel

/-!
# Fenwick trees

The cell `i` of the tree of a list holds the sum of the block of elements that ends before `i` and is
as long as the lowest set bit of `i`. A prefix is a row of such blocks, and the cells whose blocks
have one element in them follow each other by adding the lowest set bit. Words are `w` bits wide.
-/

set_option autoImplicit false

universe u

namespace Diffz
namespace Fenwick

/-- `i & (!i + 1)`, of a word. -/
def lowBit (w i : Nat) : Nat := i &&& (2 ^ w - i)

/-- The element at `p` is in the block of the cell `i`. -/
def Covers (w i p : Nat) : Prop := i - lowBit w i ≤ p ∧ p < i

instance (w i p : Nat) : Decidable (Covers w i p) := inferInstanceAs (Decidable (_ ∧ _))

variable {w i j p k e : Nat}

/-! ## The lowest set bit -/

theorem lowBit_even (w m : Nat) : lowBit (w + 1) (2 * m) = 2 * lowBit w m := by
  have hpow : 2 ^ (w + 1) - 2 * m = 2 * (2 ^ w - m) := by
    rw [pow_succ]
    omega
  have hbit := Nat.land_bit false m false (2 ^ w - m)
  simp only [Nat.bit_false, Bool.and_self] at hbit
  rw [lowBit, hpow, hbit]
  rfl

theorem lowBit_odd {m : Nat} (h : m < 2 ^ w) : lowBit (w + 1) (2 * m + 1) = 1 := by
  have hpow : 2 ^ (w + 1) - (2 * m + 1) = 2 * (2 ^ w - (m + 1)) + 1 := by
    rw [pow_succ]
    omega
  have hbit := Nat.land_bit true m true (2 ^ w - (m + 1))
  -- Below the lowest bit, the two words have no bit in common.
  have hnone : m &&& (2 ^ w - (m + 1)) = 0 := by
    refine Nat.eq_of_testBit_eq fun b => ?_
    rw [Nat.testBit_and, Nat.testBit_two_pow_sub_succ h, Nat.zero_testBit]
    cases m.testBit b <;> simp
  simp only [Nat.bit_true, Bool.and_self, hnone] at hbit
  rw [lowBit, hpow, hbit]

/-- The lowest set bit is the greatest power of two that divides the word. -/
theorem lowBit_spec (hpos : 0 < i) (hi : i < 2 ^ w) :
    ∃ e, lowBit w i = 2 ^ e ∧ 2 ^ e ∣ i ∧ ¬ 2 ^ (e + 1) ∣ i := by
  induction w generalizing i with
  | zero =>
    rw [pow_zero] at hi
    omega
  | succ w ih =>
    rw [pow_succ] at hi
    obtain ⟨m, rfl | rfl⟩ := Nat.even_or_odd' i
    · obtain ⟨e, heq, hdvd, hnot⟩ := @ih m (by omega) (by omega)
      refine ⟨e + 1, ?_, ?_, ?_⟩
      · rw [lowBit_even, heq, pow_succ, mul_comm]
      · rw [pow_succ, mul_comm]
        exact Nat.mul_dvd_mul_left 2 hdvd
      · rw [pow_succ _ (e + 1), mul_comm, Nat.mul_dvd_mul_iff_left (by omega)]
        exact hnot
    · refine ⟨0, ?_, ?_, ?_⟩
      · rw [lowBit_odd (by omega), pow_zero]
      · rw [pow_zero]
        exact Nat.one_dvd _
      · rw [zero_add, pow_one]
        omega

theorem lowBit_pos (hpos : 0 < i) (hi : i < 2 ^ w) : 0 < lowBit w i := by
  obtain ⟨e, heq, -⟩ := lowBit_spec hpos hi
  rw [heq]
  exact Nat.two_pow_pos e

theorem lowBit_le (i : Nat) : lowBit w i ≤ i := Nat.and_le_left

/-- A multiple of a power of two that is not one of the next. -/
theorem lowBit_eq (hpos : 0 < i) (hi : i < 2 ^ w) (hdvd : 2 ^ e ∣ i) (hnot : ¬ 2 ^ (e + 1) ∣ i) :
    lowBit w i = 2 ^ e := by
  obtain ⟨f, heq, hdvd', hnot'⟩ := lowBit_spec hpos hi
  rw [heq]
  rcases Nat.lt_trichotomy e f with hlt | rfl | hlt
  · exact absurd ((Nat.pow_dvd_pow 2 hlt).trans hdvd') hnot
  · rfl
  · exact absurd ((Nat.pow_dvd_pow 2 hlt).trans hdvd) hnot'

theorem covers_start (hpos : 0 < lowBit w (p + 1)) : Covers w (p + 1) p := by
  unfold Covers
  omega

/-- The next cell has the element as well: its lowest set bit is greater. -/
theorem Covers.next (hc : Covers w i p) (hi : i + lowBit w i < 2 ^ w) :
    Covers w (i + lowBit w i) p := by
  obtain ⟨hfrom, hto⟩ := hc
  obtain ⟨e, heq, ⟨m, hm⟩, hnot⟩ := lowBit_spec (Nat.zero_lt_of_lt hto)
    ((Nat.le_add_right i _).trans_lt hi)
  obtain ⟨f, hf, hdvd, hnot'⟩ := lowBit_spec (i := i + lowBit w i) (by omega) hi
  -- `i` is an odd multiple of its lowest set bit.
  have heven : 2 ^ (e + 1) ∣ i + lowBit w i := by
    rw [heq, hm, ← Nat.mul_succ, pow_succ, Nat.mul_dvd_mul_iff_left (Nat.two_pow_pos e)]
    have hodd : ¬ 2 ∣ m := by
      intro h2
      refine hnot ?_
      rw [hm, pow_succ]
      exact Nat.mul_dvd_mul_left _ h2
    omega
  have hlt : e < f := by
    by_contra hle
    exact hnot' ((Nat.pow_dvd_pow 2 (by omega)).trans heven)
  have hgrow : 2 * lowBit w i ≤ lowBit w (i + lowBit w i) := by
    rw [hf, heq, mul_comm, ← pow_succ]
    exact Nat.pow_le_pow_right (by omega) hlt
  unfold Covers
  omega

/-- No cell in between has it: its block is too short. -/
theorem Covers.next_le (hc : Covers w i p) (hcj : Covers w j p) (hlt : i < j) (hj : j < 2 ^ w) :
    i + lowBit w i ≤ j := by
  by_contra hbetween
  obtain ⟨e, heq, hdvd, -⟩ := lowBit_spec (Nat.zero_lt_of_lt hc.2) (hlt.trans hj)
  obtain ⟨f, hf, hdvd', -⟩ := lowBit_spec (Nat.zero_lt_of_lt hlt) hj
  obtain ⟨r, rfl⟩ := Nat.exists_eq_add_of_lt hlt
  have hshort : r + 1 < 2 ^ e := by omega
  have hfe : f < e := by
    by_contra hle
    have hr : 2 ^ e ∣ r + 1 :=
      (Nat.dvd_add_right hdvd).mp ((Nat.pow_dvd_pow 2 (by omega)).trans hdvd')
    exact absurd (Nat.le_of_dvd (by omega) hr) (by omega)
  have hr : 2 ^ f ∣ r + 1 := (Nat.dvd_add_right ((Nat.pow_dvd_pow 2 hfe.le).trans hdvd)).mp hdvd'
  have hle := Nat.le_of_dvd (by omega) hr
  have hfrom := hcj.1
  have hto := hc.2
  rw [hf] at hfrom
  omega

/-! ## Sums of blocks -/

section Sums

variable {α : Type u} [AddCommGroup α]

/-- The sum of the block of the cell `i`. -/
def block (w : Nat) (values : List α) (i : Nat) : α :=
  ((values.drop (i - lowBit w i)).take (lowBit w i)).sum

/-- The tree of a list. Its cell 0 is not used. -/
def Holds (w : Nat) (values tree : List α) : Prop :=
  tree.length = values.length + 1 ∧
    ∀ i, 0 < i → i ≤ values.length → tree[i]? = some (block w values i)

/-- A block is what it adds to a prefix. -/
theorem sum_take_block (values : List α) (i : Nat) :
    (values.take (i - lowBit w i)).sum + block w values i = (values.take i).sum := by
  have hlen : i - lowBit w i + lowBit w i = i := Nat.sub_add_cancel (lowBit_le i)
  rw [block, ← List.sum_append, ← List.take_add, hlen]

/-- A new value for one element is added to the blocks that have it. -/
theorem block_set (values : List α) (hp : p < values.length) (v : α) (hi : i ≤ values.length) :
    block w (values.set p v) i =
      if Covers w i p then block w values i + (v - values[p]) else block w values i := by
  have hle : lowBit w i ≤ i := lowBit_le i
  unfold block
  by_cases hfrom : p < i - lowBit w i
  · have hnot : ¬ Covers w i p := fun hc => absurd hc.1 (by omega)
    rw [List.drop_set, if_pos hfrom, if_neg hnot]
  · rw [List.drop_set, if_neg hfrom, List.take_set, List.sum_set']
    by_cases hto : p < i
    · have hlen : p - (i - lowBit w i) <
          ((values.drop (i - lowBit w i)).take (lowBit w i)).length := by
        rw [List.length_take, List.length_drop]
        omega
      have hget : ((values.drop (i - lowBit w i)).take (lowBit w i))[p - (i - lowBit w i)] =
          values[p] := by
        simp only [List.getElem_take, List.getElem_drop]
        congr 1
        omega
      have hcov : Covers w i p := ⟨by omega, hto⟩
      rw [dif_pos hlen, hget, if_pos hcov]
      abel
    · have hlen : ¬ p - (i - lowBit w i) <
          ((values.drop (i - lowBit w i)).take (lowBit w i)).length := by
        rw [List.length_take, List.length_drop]
        omega
      have hnot : ¬ Covers w i p := fun hc => absurd hc.2 hto
      rw [dif_neg hlen, if_neg hnot, add_zero]

end Sums

end Fenwick
end Diffz
