import Mathlib.Data.List.Basic

/-!
# Positions in a list

The indices at which a predicate holds. In a list made of blocks with one such element at the head of
each, they are where the blocks begin.
-/

set_option autoImplicit false

universe u v

namespace Diffz

variable {α : Type u} {β : Type v}

/-- The positions of the elements that satisfy `p`, in order. -/
def positions (p : α → Bool) : List α → List Nat
  | [] => []
  | a :: l => if p a then 0 :: (positions p l).map (· + 1) else (positions p l).map (· + 1)

/-- Where the blocks of a list begin, the first one at `n`. -/
def blockStarts (block : β → List α) : Nat → List β → List Nat
  | _, [] => []
  | n, b :: bs => n :: blockStarts block (n + (block b).length) bs

variable {p : α → Bool} {block : β → List α}

theorem positions_append (l m : List α) :
    positions p (l ++ m) = positions p l ++ (positions p m).map (· + l.length) := by
  induction l with
  | nil => simp [positions]
  | cons a l ih =>
    have hshift : ((positions p m).map (· + l.length)).map (· + 1) =
        (positions p m).map (· + (a :: l).length) := by
      simp [Function.comp_def, Nat.add_assoc]
    simp only [List.cons_append, positions, ih, List.map_append, hshift]
    split
    · rfl
    · rfl

theorem positions_eq_nil {l : List α} (h : ∀ a ∈ l, p a = false) : positions p l = [] := by
  induction l with
  | nil => rfl
  | cons a l ih =>
    rw [positions, h a List.mem_cons_self, ih fun b hb => h b (List.mem_cons_of_mem a hb)]
    rfl

theorem blockStarts_append (n : Nat) (bs cs : List β) :
    blockStarts block n (bs ++ cs) =
      blockStarts block n bs ++ blockStarts block (n + (bs.flatMap block).length) cs := by
  induction bs generalizing n with
  | nil => rfl
  | cons b bs ih =>
    rw [List.cons_append, blockStarts, ih, blockStarts, List.flatMap_cons, List.length_append,
      Nat.add_assoc, List.cons_append]

@[simp] theorem blockStarts_length (n : Nat) (bs : List β) :
    (blockStarts block n bs).length = bs.length := by
  induction bs generalizing n with
  | nil => rfl
  | cons b bs ih => rw [blockStarts, List.length_cons, List.length_cons, ih]

theorem blockStarts_shift (n c : Nat) (bs : List β) :
    (blockStarts block n bs).map (· + c) = blockStarts block (n + c) bs := by
  induction bs generalizing n with
  | nil => rfl
  | cons b bs ih =>
    rw [blockStarts, List.map_cons, ih, blockStarts, Nat.add_right_comm]

/-- Each block has its one position at its head. -/
theorem positions_blocks {pre : List α} {bs : List β} (hpre : ∀ a ∈ pre, p a = false)
    (hblock : ∀ b ∈ bs, positions p (block b) = [0]) :
    positions p (pre ++ bs.flatMap block) = blockStarts block pre.length bs := by
  have hstarts : ∀ l : List β, (∀ b ∈ l, positions p (block b) = [0]) →
      positions p (l.flatMap block) = blockStarts block 0 l := by
    intro l hl
    induction l with
    | nil => rfl
    | cons b l ih =>
      rw [List.flatMap_cons, positions_append, hl b List.mem_cons_self,
        ih fun c hc => hl c (List.mem_cons_of_mem b hc), blockStarts_shift, blockStarts]
      rfl
  rw [positions_append, positions_eq_nil hpre, hstarts bs hblock, blockStarts_shift, Nat.zero_add,
    List.nil_append]

end Diffz
