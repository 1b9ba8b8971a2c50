import Mathlib.Order.Basic
import Mathlib.Data.List.Induction
import Mathlib.Data.List.Sort

/-!
# Ordered maps

A map kept as its entries in increasing order of the keys, which is the order it is written in:
`BTreeMap`. Two maps with the same entries are equal, so a map survives being listed and collected
again (`ofList_entries`).
-/

set_option autoImplicit false

universe u v

namespace Diffz

/-- A map from `κ` to `ν`, in the order of the keys. -/
structure OrdMap (κ : Type u) (ν : Type v) [LinearOrder κ] where
  entries : List (κ × ν)
  sorted : entries.Pairwise fun a b => a.1 < b.1

namespace OrdMap

variable {κ : Type u} {ν : Type v} [LinearOrder κ]

theorem eq_of_entries {m n : OrdMap κ ν} (h : m.entries = n.entries) : m = n := by
  cases m
  cases n
  cases h
  rfl

instance [DecidableEq ν] : DecidableEq (OrdMap κ ν) := fun _ _ =>
  decidable_of_iff _ ⟨eq_of_entries, congrArg entries⟩

def empty : OrdMap κ ν := ⟨[], .nil⟩

def isEmpty (m : OrdMap κ ν) : Bool := m.entries.isEmpty

/-- The entries with `k` mapped to `v`. -/
def insertEntry (k : κ) (v : ν) : List (κ × ν) → List (κ × ν)
  | [] => [(k, v)]
  | e :: rest =>
    if k < e.1 then (k, v) :: e :: rest
    else if k = e.1 then (k, v) :: rest
    else e :: insertEntry k v rest

theorem mem_insertEntry {k : κ} {v : ν} {l : List (κ × ν)} {e : κ × ν}
    (h : e ∈ insertEntry k v l) : e = (k, v) ∨ e ∈ l := by
  induction l with
  | nil => exact .inl (List.mem_singleton.mp h)
  | cons a rest ih =>
    rw [insertEntry] at h
    split at h
    · exact List.mem_cons.mp h
    split at h
    · exact (List.mem_cons.mp h).imp_right (List.mem_cons_of_mem a)
    · rcases List.mem_cons.mp h with rfl | h
      · exact .inr List.mem_cons_self
      · exact (ih h).imp_right (List.mem_cons_of_mem a)

theorem sorted_insertEntry {k : κ} {v : ν} {l : List (κ × ν)}
    (h : l.Pairwise fun a b => a.1 < b.1) :
    (insertEntry k v l).Pairwise fun a b => a.1 < b.1 := by
  induction l with
  | nil => exact List.pairwise_singleton _ _
  | cons a rest ih =>
    obtain ⟨ha, hrest⟩ := List.pairwise_cons.mp h
    rw [insertEntry]
    split
    · rename_i hlt
      refine List.pairwise_cons.mpr ⟨?_, h⟩
      intro b hb
      rcases List.mem_cons.mp hb with rfl | hb
      · exact hlt
      · exact lt_trans hlt (ha b hb)
    split
    · rename_i heq
      exact List.pairwise_cons.mpr ⟨fun b hb => heq ▸ ha b hb, hrest⟩
    · rename_i hlt hne
      refine List.pairwise_cons.mpr ⟨?_, ih hrest⟩
      intro b hb
      rcases mem_insertEntry hb with rfl | hb
      · exact lt_of_le_of_ne (not_lt.mp hlt) (Ne.symm hne)
      · exact ha b hb

/-- Setting a key changes its entry, or puts one between the others. -/
theorem insertEntry_split [BEq κ] [LawfulBEq κ] {k : κ} (v : ν) {l : List (κ × ν)}
    (h : l.Pairwise fun a b => a.1 < b.1) :
    ∃ a b, l = a ++ (l.lookup k).toList.map (fun w => (k, w)) ++ b ∧
      insertEntry k v l = a ++ (k, v) :: b := by
  induction l with
  | nil => exact ⟨[], [], rfl, rfl⟩
  | cons e rest ih =>
    obtain ⟨he, hrest⟩ := List.pairwise_cons.mp h
    rcases lt_trichotomy k e.1 with hlt | rfl | hgt
    · have hnone : (e :: rest).lookup k = none := by
        rw [List.lookup_eq_none_iff]
        intro x hx
        rcases List.mem_cons.mp hx with rfl | hx
        · exact bne_iff_ne.mpr hlt.ne
        · exact bne_iff_ne.mpr (lt_trans hlt (he x hx)).ne
      refine ⟨[], e :: rest, ?_, ?_⟩
      · rw [hnone]
        rfl
      · rw [insertEntry, if_pos hlt]
        rfl
    · refine ⟨[], rest, ?_, ?_⟩
      · rw [List.lookup_cons_self]
        rfl
      · rw [insertEntry, if_neg (lt_irrefl _), if_pos rfl]
        rfl
    · obtain ⟨a, b, hl, hinsert⟩ := ih hrest
      have hne : (k == e.1) = false := beq_eq_false_iff_ne.mpr hgt.ne'
      refine ⟨e :: a, b, ?_, ?_⟩
      · rw [List.lookup_cons, hne]
        exact congrArg (e :: ·) hl
      · rw [insertEntry, if_neg (not_lt.mpr hgt.le), if_neg hgt.ne', hinsert]
        rfl

def insert (m : OrdMap κ ν) (k : κ) (v : ν) : OrdMap κ ν :=
  ⟨insertEntry k v m.entries, sorted_insertEntry m.sorted⟩

def ofList (l : List (κ × ν)) : OrdMap κ ν := l.foldl (fun m e => m.insert e.1 e.2) empty

/-- The entries that `p` keeps. -/
def filter (m : OrdMap κ ν) (p : κ → ν → Bool) : OrdMap κ ν :=
  ⟨m.entries.filter fun e => p e.1 e.2, m.sorted.sublist List.filter_sublist⟩

theorem mem_insert {m : OrdMap κ ν} {k : κ} {v : ν} {e : κ × ν}
    (h : e ∈ (m.insert k v).entries) : e = (k, v) ∨ e ∈ m.entries :=
  mem_insertEntry h

/-- A key above all others goes to the end. -/
theorem insertEntry_last {k : κ} {v : ν} {l : List (κ × ν)} (h : ∀ e ∈ l, e.1 < k) :
    insertEntry k v l = l ++ [(k, v)] := by
  induction l with
  | nil => rfl
  | cons a rest ih =>
    have ha := h a List.mem_cons_self
    rw [insertEntry, if_neg (not_lt.mpr ha.le), if_neg ha.ne',
      ih fun e he => h e (List.mem_cons_of_mem a he), List.cons_append]

theorem foldl_insert_entries {m : OrdMap κ ν} {l : List (κ × ν)}
    (h : (m.entries ++ l).Pairwise fun a b => a.1 < b.1) :
    (l.foldl (fun m e => m.insert e.1 e.2) m).entries = m.entries ++ l := by
  induction l generalizing m with
  | nil => rw [List.foldl_nil, List.append_nil]
  | cons e rest ih =>
    have hlast : (m.insert e.1 e.2).entries = m.entries ++ [e] := by
      refine insertEntry_last ?_
      intro a ha
      exact (List.pairwise_append.mp h).2.2 a ha e List.mem_cons_self
    rw [List.foldl_cons, ih (by rwa [hlast, List.append_assoc]), hlast, List.append_assoc,
      List.singleton_append]

@[simp] theorem ofList_entries (m : OrdMap κ ν) : ofList m.entries = m :=
  eq_of_entries (foldl_insert_entries m.sorted)

/-! ## Lookup -/

def get (m : OrdMap κ ν) (k : κ) : Option ν := m.entries.lookup k

theorem lookup_insertEntry (k j : κ) (v : ν) (l : List (κ × ν)) :
    (insertEntry k v l).lookup j = if j = k then some v else l.lookup j := by
  induction l with
  | nil =>
    rw [insertEntry, List.lookup_cons]
    by_cases hj : j = k
    · rw [if_pos hj, beq_iff_eq.mpr hj]
    · rw [if_neg hj, beq_eq_false_iff_ne.mpr hj]
  | cons e rest ih =>
    rw [insertEntry]
    split
    · rw [List.lookup_cons]
      by_cases hj : j = k
      · rw [if_pos hj, beq_iff_eq.mpr hj]
      · rw [if_neg hj, beq_eq_false_iff_ne.mpr hj]
    split
    · rename_i heq
      rw [List.lookup_cons]
      by_cases hj : j = k
      · rw [if_pos hj, beq_iff_eq.mpr hj]
      · rw [if_neg hj, beq_eq_false_iff_ne.mpr hj, List.lookup_cons, ← heq,
          beq_eq_false_iff_ne.mpr hj]
    · rename_i hne
      rw [List.lookup_cons, List.lookup_cons, ih]
      by_cases hj : j = e.1
      · have hjk : j ≠ k := fun hk => hne (hk.symm.trans hj)
        simp only [beq_iff_eq.mpr hj, if_neg hjk]
      · rw [beq_eq_false_iff_ne.mpr hj]

@[simp] theorem get_insert (m : OrdMap κ ν) (k j : κ) (v : ν) :
    (m.insert k v).get j = if j = k then some v else m.get j :=
  lookup_insertEntry k j v m.entries

/-- What is listed last goes. -/
theorem get_ofList (l : List (κ × ν)) (k : κ) : (ofList l).get k = l.reverse.lookup k := by
  induction l using List.reverseRecOn with
  | nil => rfl
  | append_singleton l e ih =>
    have hlast : ofList (l ++ [e]) = (ofList l).insert e.1 e.2 := by
      rw [ofList, List.foldl_append]
      rfl
    rw [hlast, get_insert, ih, List.reverse_concat, List.lookup_cons]
    by_cases hk : k = e.1
    · rw [if_pos hk, beq_iff_eq.mpr hk]
    · rw [if_neg hk, beq_eq_false_iff_ne.mpr hk]

end OrdMap
end Diffz
