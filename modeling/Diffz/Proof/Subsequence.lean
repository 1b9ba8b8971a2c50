import Diffz.Proof.Rich

/-!
# Both subsequences are longest

The two routines fill one vector and walk through it. For lists whose table is no larger than a vector
can be its words hold the lengths, and no index is out of range; so both return what the walk through
the rows does, and that is a longest matching.
-/

set_option autoImplicit false

namespace Diffz
namespace Proof
namespace Subsequence

variable {α : Type} [DecidableEq α] {a b : List α} {old new : Rich.HunkSide}

omit [DecidableEq α] in
/-- A vector of all lengths is too large long before a `u32` is too small. -/
theorem wrapU32_exact (h : (a.length + 1) * (b.length + 1) ≤ Inline.maxWords) :
    ∀ n ≤ min a.length b.length, Inline.wrapU32 n = n := by
  intro n hn
  have hsquare : (n + 1) * (n + 1) ≤ Inline.maxWords := by
    refine le_trans (Nat.mul_le_mul ?_ ?_) h
    · omega
    · omega
  have hlt : n < u32Max + 1 := by
    by_contra hge
    have hbig := Nat.mul_le_mul (Nat.le_of_not_lt hge) (Nat.le_of_not_lt hge)
    have hle := Nat.mul_le_mul (Nat.le_succ n) (Nat.le_succ n)
    have hfalse : ¬ (u32Max + 1) * (u32Max + 1) ≤ Inline.maxWords := by decide
    exact hfalse ((hbig.trans hle).trans hsquare)
  exact Nat.mod_eq_of_lt hlt

omit [DecidableEq α] in
theorem longest_nil (h : a = [] ∨ b = []) : Longest a b [] := by
  refine ⟨⟨.nil, List.forall_mem_nil _⟩, fun m hm => ?_⟩
  cases m with
  | nil => exact le_refl _
  | cons p m =>
    obtain ⟨x, hx, hy⟩ := hm.2 p List.mem_cons_self
    rcases h with rfl | rfl
    · cases hx
    · cases hy

/-- What the vector's walk returns is longest. -/
theorem lcsFlat_longest {wrap : Nat → Nat} {guard : Nat → Bool} {down : Nat → Nat → Bool}
    (hwrap : ∀ n ≤ min a.length b.length, wrap n = n)
    (hguard : ∀ i < a.length, guard i = false → a.length ≤ i + 1)
    (hdown : ∀ i j, i < a.length → j < b.length → lengthDown guard a b i j = down i j) :
    lcsFlat wrap a b guard = some (walk down 0 0 a b) ∧
      Longest a b (walk down 0 0 a b) := by
  have hflat := lcsFlat_eq hwrap hdown
  have hlengths := lcsFlat_eq hwrap (fun i j _ _ => rfl : ∀ i j, i < a.length → j < b.length →
    lengthDown guard a b i j = lengthDown guard a b i j)
  have hsame := Option.some.inj (hflat.symm.trans hlengths)
  exact ⟨hflat, hsame ▸ walk_longest (lengthDown_guided hguard)⟩

theorem inline_longest (a b : List α)
    (h : ¬ Inline.maxWords < (a.length + 1) * (b.length + 1)) :
    Inline.lcsLoop a b = some (Inline.lcs a b) ∧ Longest a b (Inline.lcs a b) := by
  rw [Inline.lcsLoop, Inline.lcs]
  by_cases hempty : a = [] ∨ b = []
  · rw [if_pos hempty, if_pos hempty]
    exact ⟨rfl, longest_nil hempty⟩
  · have hwrap := wrapU32_exact (Nat.le_of_not_lt h)
    rw [if_neg hempty, if_neg hempty, if_neg h]
    refine lcsFlat_longest hwrap (fun i _ hfalse => by cases hfalse) fun i j hi hj => ?_
    have hright := entry_lcsTable hwrap hi.le (Nat.succ_le_of_lt hj)
    have hbelow := entry_lcsTable hwrap (Nat.succ_le_of_lt hi) hj.le
    rw [lengthDown, hright, hbelow, Bool.true_and]

theorem rich_longest (h : ¬ old.blocks.length * new.blocks.length > 250000) :
    ∃ m, Rich.lcsLoop old new = some (some m) ∧ Rich.lcs old new = some m ∧
      Longest (Rich.norms old) (Rich.norms new) m := by
  have hlen : (Rich.norms old).length = old.blocks.length := by simp [Rich.norms]
  rw [Rich.lcsLoop, Rich.lcs]
  by_cases hempty : old.blocks = [] ∨ new.blocks = []
  · rw [if_pos hempty, if_pos hempty]
    refine ⟨[], rfl, rfl, longest_nil ?_⟩
    rcases hempty with hempty | hempty
    · simp [Rich.norms, hempty]
    · simp [Rich.norms, hempty]
  · rw [if_neg hempty, if_neg hempty, if_neg h, if_neg h]
    have hwrap := Proof.Rich.dp_exact (Nat.le_of_not_lt h)
    have hguard : ∀ i < (Rich.norms old).length,
        decide (i + 1 < old.blocks.length) = false → (Rich.norms old).length ≤ i + 1 := by
      intro i _ hfalse
      have hge := of_decide_eq_false hfalse
      omega
    obtain ⟨hflat, hlongest⟩ := lcsFlat_longest hwrap hguard fun i j hi hj => by
      have hright := entry_lcsTable hwrap hi.le (Nat.succ_le_of_lt hj)
      have hbelow := entry_lcsTable hwrap (Nat.succ_le_of_lt hi) hj.le
      rw [lengthDown, ← hright, ← hbelow]
    exact ⟨_, by rw [hflat]; rfl, rfl, hlongest⟩

/-- **Both routines are longest.** For tokens there is a result unless no vector holds the table, and for
the blocks of two sides unless they are too many. -/
theorem lcs_longest (a b : List α) (old new : Rich.HunkSide) :
    (Inline.lcsLoop a b = some (Inline.lcs a b) ∧ Longest a b (Inline.lcs a b) ∨
        Inline.maxWords < (a.length + 1) * (b.length + 1)) ∧
      ((∃ m, Rich.lcsLoop old new = some (some m) ∧ Rich.lcs old new = some m ∧
          Longest (Rich.norms old) (Rich.norms new) m) ∨
        250000 < old.blocks.length * new.blocks.length) := by
  constructor
  · by_cases h : Inline.maxWords < (a.length + 1) * (b.length + 1)
    · exact .inr h
    · exact .inl (inline_longest a b h)
  · by_cases h : old.blocks.length * new.blocks.length > 250000
    · exact .inr h
    · exact .inl (rich_longest h)

end Subsequence
end Proof
end Diffz
