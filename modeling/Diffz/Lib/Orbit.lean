import Mathlib.Data.List.Chain
import Mathlib.Data.List.Nodup

/-!
# Following a partial function

A list that follows a partial function visits new elements until it comes to one that it visited
before. From there on it visits nothing new.
-/

set_option autoImplicit false

universe u

namespace Diffz

variable {α : Type u}

/-- Each element of the list is the next one of that before it. -/
def Follows (next : α → Option α) (l : List α) : Prop := l.IsChain fun a b => next a = some b

/-- The elements up to the first repeated one. -/
theorem exists_nodup_split (l : List α) :
    ∃ visited rest, l = visited ++ rest ∧ visited.Nodup ∧ ∀ x ∈ rest.head?, x ∈ visited := by
  induction l using List.reverseRecOn with
  | nil => exact ⟨[], [], rfl, .nil, by simp⟩
  | append_singleton l x ih =>
    obtain ⟨visited, rest, rfl, hnodup, hrest⟩ := ih
    cases rest with
    | nil =>
      by_cases hx : x ∈ visited
      · exact ⟨visited, [x], by simp, hnodup, by simpa using hx⟩
      · refine ⟨visited ++ [x], [], by simp, ?_, by simp⟩
        exact List.nodup_append.mpr ⟨hnodup, List.nodup_singleton x, fun a ha b hb heq =>
          hx (by rwa [← List.mem_singleton.mp hb, ← heq])⟩
    | cons y rest => exact ⟨visited, y :: rest ++ [x], by simp, hnodup, by simpa using hrest⟩

namespace Follows

variable {next : α → Option α} {l visited rest : List α} {x : α}

/-- From an element of a closed set on, all are in it. -/
theorem all_mem (hclosed : ∀ a ∈ visited, ∀ b, next a = some b → b ∈ visited)
    (h : Follows next l) (hhead : ∀ x ∈ l.head?, x ∈ visited) : ∀ x ∈ l, x ∈ visited := by
  induction l with
  | nil => exact nofun
  | cons a l ih =>
    have ha := hhead a rfl
    refine List.forall_mem_cons.mpr ⟨ha, ih h.tail fun b hb => ?_⟩
    cases l with
    | nil => cases hb
    | cons c l =>
      obtain rfl : c = b := Option.some.inj hb
      exact hclosed a ha c (List.isChain_cons_cons.mp h).1

/-- What is visited leads to what is visited, where the list comes back to it. -/
theorem closed (h : Follows next (visited ++ rest)) (hne : rest ≠ [])
    (hrest : ∀ x ∈ rest.head?, x ∈ visited) :
    ∀ a ∈ visited, ∀ b, next a = some b → b ∈ visited := by
  intro a ha b hb
  obtain ⟨before, after, rfl⟩ := List.append_of_mem ha
  obtain ⟨y, rest, rfl⟩ := List.exists_cons_of_ne_nil hne
  rw [Follows, List.append_assoc] at h
  cases after with
  | nil =>
    have hy : next a = some y :=
      (List.isChain_cons_cons.mp (List.isChain_append.mp h).2.1).1
    obtain rfl : y = b := Option.some.inj (hy ▸ hb)
    exact hrest y rfl
  | cons c after =>
    have hc : next a = some c := (List.isChain_cons_cons.mp (List.isChain_append.mp h).2.1).1
    obtain rfl : c = b := Option.some.inj (hc ▸ hb)
    simp

/-- **Where a list goes that follows a function.** It visits elements once each and then only such
elements again, and what they lead to is visited unless the list ends with them. -/
theorem exists_visited (h : Follows next l) :
    ∃ visited rest, l = visited ++ rest ∧ visited.Nodup ∧ (∀ x ∈ rest, x ∈ visited) ∧
      (rest = [] ∨ ∀ a ∈ visited, ∀ b, next a = some b → b ∈ visited) := by
  obtain ⟨visited, rest, rfl, hnodup, hrest⟩ := exists_nodup_split l
  rcases eq_or_ne rest [] with rfl | hne
  · exact ⟨visited, [], rfl, hnodup, nofun, .inl rfl⟩
  · have hclosed := h.closed hne hrest
    refine ⟨visited, rest, rfl, hnodup, ?_, .inr hclosed⟩
    exact all_mem hclosed (List.isChain_append.mp h).2.1 hrest

end Follows
end Diffz
