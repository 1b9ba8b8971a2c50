import Mathlib.Data.List.Basic
import Mathlib.Logic.Relation

/-!
# Reachable nodes

A search keeps the nodes it has `seen` and those it will look at `next`. `Frontier` is what holds
between its steps: each edge from a seen node leads to a seen node or to one that is yet to be
looked at. The order of `next` does not matter, and roots may be added where nothing is left of it.
-/

set_option autoImplicit false

universe u

namespace Diffz

/-- Nodes and edges; an edge may lead outside of the nodes. -/
structure Graph (α : Type u) where
  node : α → Prop
  edge : α → α → Prop

namespace Graph

variable {α : Type u} (g : Graph α)

/-- A node that some root leads to, through nodes. -/
def Reachable (roots : List α) (x : α) : Prop :=
  ∃ r ∈ roots, g.node r ∧ Relation.ReflTransGen (fun a b => g.edge a b ∧ g.node b) r x

/-- What a search from the roots has seen, and what it will look at. -/
structure Frontier (roots seen next : List α) : Prop where
  sound : ∀ x ∈ seen, g.Reachable roots x
  todo : ∀ x ∈ next, g.node x → g.Reachable roots x
  closed : ∀ x ∈ seen, ∀ y, g.edge x y → g.node y → y ∈ seen ∨ y ∈ next
  roots : ∀ r ∈ roots, g.node r → r ∈ seen ∨ r ∈ next

variable {g} {roots seen next more : List α} {x : α}

theorem Reachable.node (h : g.Reachable roots x) : g.node x := by
  obtain ⟨r, -, hr, hpath⟩ := h
  cases hpath with
  | refl => exact hr
  | tail _ hlast => exact hlast.2

theorem Reachable.mono (h : g.Reachable roots x) (more : List α) :
    g.Reachable (roots ++ more) x := by
  obtain ⟨r, hr, hpath⟩ := h
  exact ⟨r, List.mem_append_left _ hr, hpath⟩

namespace Frontier

theorem start : g.Frontier [] [] [] := ⟨nofun, nofun, nofun, nofun⟩

/-- A new root is looked at next. -/
theorem root (h : g.Frontier roots seen []) (r : α) : g.Frontier (roots ++ [r]) seen [r] where
  sound := fun x hx => (h.sound x hx).mono [r]
  todo := by
    intro x hx hnode
    exact ⟨x, List.mem_append_right _ hx, hnode, .refl⟩
  closed := by
    intro x hx y hedge hy
    exact (h.closed x hx y hedge hy).imp_right nofun
  roots := by
    intro r' hr' hnode
    rcases List.mem_append.mp hr' with hr' | hr'
    · exact (h.roots r' hr' hnode).imp_right nofun
    · exact .inr hr'

/-- What is outside, or seen already, is skipped. -/
theorem skip (h : g.Frontier roots seen (x :: next)) (hx : g.node x → x ∈ seen) :
    g.Frontier roots seen next where
  sound := h.sound
  todo := fun y hy => h.todo y (.tail _ hy)
  closed := by
    intro y hy z hedge hz
    rcases h.closed y hy z hedge hz with hz | hz
    · exact .inl hz
    · rcases List.mem_cons.mp hz with rfl | hz'
      · exact .inl (hx (by assumption))
      · exact .inr hz'
  roots := by
    intro r hr hnode
    rcases h.roots r hr hnode with hr | hr
    · exact .inl hr
    · rcases List.mem_cons.mp hr with rfl | hr
      · exact .inl (hx hnode)
      · exact .inr hr

/-- A node is seen, and all it leads to will be looked at. -/
theorem visit (h : g.Frontier roots seen (x :: next)) (hx : g.node x)
    (hedge : ∀ y, g.edge x y ↔ y ∈ more) : g.Frontier roots (x :: seen) (more ++ next) := by
  have hreach := h.todo x (List.mem_cons_self ..) hx
  have hkeep : ∀ y, y ∈ seen ∨ y ∈ x :: next → y ∈ x :: seen ∨ y ∈ more ++ next := by
    intro y hy
    rcases hy with hy | hy
    · exact .inl (.tail _ hy)
    · rcases List.mem_cons.mp hy with rfl | hy
      · exact .inl (List.mem_cons_self ..)
      · exact .inr (List.mem_append_right _ hy)
  refine ⟨?_, ?_, ?_, fun r hr hnode => hkeep r (h.roots r hr hnode)⟩
  · exact List.forall_mem_cons.mpr ⟨hreach, h.sound⟩
  · intro y hy hnode
    rcases List.mem_append.mp hy with hy | hy
    · obtain ⟨r, hr, hroot, hpath⟩ := hreach
      exact ⟨r, hr, hroot, hpath.tail ⟨(hedge y).mpr hy, hnode⟩⟩
    · exact h.todo y (.tail _ hy) hnode
  · intro y hy z hyz hz
    rcases List.mem_cons.mp hy with rfl | hy
    · exact .inr (List.mem_append_left _ ((hedge z).mp hyz))
    · exact hkeep z (h.closed y hy z hyz hz)

/-- **Search.** Where nothing is left to look at, the nodes that are seen are those that the roots
lead to. -/
theorem mem_iff (h : g.Frontier roots seen []) : x ∈ seen ↔ g.Reachable roots x := by
  refine ⟨h.sound x, ?_⟩
  rintro ⟨r, hr, hnode, hpath⟩
  induction hpath with
  | refl => exact (h.roots r hr hnode).resolve_right (by simp)
  | tail _ hlast ih => exact (h.closed _ ih _ hlast.1 hlast.2).resolve_right (by simp)

end Frontier
end Graph
end Diffz
