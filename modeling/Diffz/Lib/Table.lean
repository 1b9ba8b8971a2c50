import Mathlib.Data.List.AList
import Mathlib.Data.List.Induction

/-!
# Keyed tables

A table with a primary key: an association list without repeated keys. Insertion, lookup and
deletion of one row are Mathlib's `AList`; what is added is the pair of statements that touch rows
by a condition, `UPDATE … WHERE` and `DELETE … WHERE`, and how they look up.
-/

set_option autoImplicit false

universe u v

namespace Diffz

variable {κ : Type u} {ρ : Type v} [DecidableEq κ]

/-- A table of rows `ρ` under keys `κ`. -/
abbrev Table (κ : Type u) (ρ : Type v) : Type (max u v) := AList fun _ : κ => ρ

namespace Table

/-- The row of a key. -/
abbrev find (t : Table κ ρ) (k : κ) : Option ρ := t.lookup k

/-- Write a row, replacing the one of its key. -/
abbrev put (t : Table κ ρ) (k : κ) (r : ρ) : Table κ ρ := t.insert k r

/-- All rows, in the table's order. -/
def rows (t : Table κ ρ) : List ρ := t.entries.map (·.2)

/-- `UPDATE … WHERE key = k`: nothing happens where there is no such row. -/
def modify (t : Table κ ρ) (k : κ) (f : ρ → ρ) : Table κ ρ :=
  match t.find k with
  | some r => t.put k (f r)
  | none => t

omit [DecidableEq κ] in
theorem filter_nodupKeys (t : Table κ ρ) (p : κ → ρ → Bool) :
    (t.entries.filter fun e => p e.1 e.2).NodupKeys :=
  List.NodupKeys.sublist List.filter_sublist t.nodupKeys

/-- `DELETE … WHERE`: the rows that `p` keeps. -/
def restrict (t : Table κ ρ) (p : κ → ρ → Bool) : Table κ ρ :=
  ⟨t.entries.filter fun e => p e.1 e.2, filter_nodupKeys t p⟩

theorem find_put_self (t : Table κ ρ) (k : κ) (r : ρ) : (t.put k r).find k = some r :=
  AList.lookup_insert t

theorem find_put_ne {t : Table κ ρ} {k k' : κ} (r : ρ) (h : k' ≠ k) :
    (t.put k r).find k' = t.find k' :=
  AList.lookup_insert_ne h

theorem find_put (t : Table κ ρ) (k k' : κ) (r : ρ) :
    (t.put k r).find k' = if k' = k then some r else t.find k' := by
  split
  · rename_i h
    rw [h]
    exact find_put_self t k r
  · rename_i h
    exact find_put_ne r h

theorem find_empty (k : κ) : (∅ : Table κ ρ).find k = none :=
  AList.lookup_empty k

theorem find_erase (t : Table κ ρ) (k k' : κ) :
    find (AList.erase k t) k' = if k' = k then none else t.find k' := by
  split
  · rename_i h
    rw [h]
    exact AList.lookup_erase k t
  · rename_i h
    exact AList.lookup_erase_ne h

theorem find_eq_some_iff {t : Table κ ρ} {k : κ} {r : ρ} :
    t.find k = some r ↔ ⟨k, r⟩ ∈ t.entries :=
  AList.mem_lookup_iff

theorem mem_rows_iff {t : Table κ ρ} {r : ρ} : r ∈ t.rows ↔ ∃ k, t.find k = some r := by
  constructor
  · intro h
    obtain ⟨e, he, rfl⟩ := List.mem_map.mp h
    exact ⟨e.1, find_eq_some_iff.mpr he⟩
  · rintro ⟨k, h⟩
    exact List.mem_map.mpr ⟨⟨k, r⟩, find_eq_some_iff.mp h, rfl⟩

theorem find_modify (t : Table κ ρ) (k k' : κ) (f : ρ → ρ) :
    (t.modify k f).find k' = if k' = k then (t.find k').map f else t.find k' := by
  unfold modify
  cases h : t.find k with
  | none =>
    dsimp only
    split
    · rename_i hk
      rw [hk, h]
      rfl
    · rfl
  | some r =>
    dsimp only
    rw [find_put]
    split
    · rename_i hk
      rw [hk, h]
      rfl
    · rfl

theorem restrict_eq_self (t : Table κ ρ) {p : κ → ρ → Bool} (h : ∀ k r, p k r = true) :
    t.restrict p = t :=
  AList.ext (List.filter_eq_self.mpr fun e _ => h e.1 e.2)

theorem find_restrict (t : Table κ ρ) (p : κ → ρ → Bool) (k : κ) :
    (t.restrict p).find k = (t.find k).filter (p k) := by
  cases h : t.find k with
  | none =>
    rw [Option.filter_none]
    cases h' : (t.restrict p).find k with
    | none => rfl
    | some r =>
      have hm := List.mem_of_mem_filter (find_eq_some_iff.mp h')
      rw [find_eq_some_iff.mpr hm] at h
      cases h
  | some r =>
    have hm := find_eq_some_iff.mp h
    cases hp : p k r with
    | true =>
      rw [Option.filter_some_pos hp]
      exact find_eq_some_iff.mpr (List.mem_filter.mpr ⟨hm, hp⟩)
    | false =>
      rw [Option.filter_some_neg (by simp [hp])]
      cases h' : (t.restrict p).find k with
      | none => rfl
      | some r' =>
        obtain ⟨hm', hp'⟩ := List.mem_filter.mp (find_eq_some_iff.mp h')
        have hr : t.find k = some r' := find_eq_some_iff.mpr hm'
        rw [h] at hr
        cases hr
        rw [hp] at hp'
        cases hp'

omit [DecidableEq κ] in
theorem mapRows_nodupKeys {ρ' : Type*} (t : Table κ ρ) (f : ρ → ρ') :
    List.NodupKeys (t.entries.map fun e => (⟨e.1, f e.2⟩ : (_ : κ) × ρ')) := by
  have hkeys := t.nodupKeys
  rw [List.NodupKeys, List.keys] at hkeys ⊢
  simpa [Function.comp_def] using hkeys

/-- Every row changed. -/
def mapRows {ρ' : Type*} (t : Table κ ρ) (f : ρ → ρ') : Table κ ρ' :=
  ⟨t.entries.map fun e => ⟨e.1, f e.2⟩, mapRows_nodupKeys t f⟩

theorem find_mapRows {ρ' : Type*} (t : Table κ ρ) (f : ρ → ρ') (k : κ) :
    (t.mapRows f).find k = (t.find k).map f := by
  cases h : t.find k with
  | some r =>
    exact find_eq_some_iff.mpr (List.mem_map.mpr ⟨_, find_eq_some_iff.mp h, rfl⟩)
  | none =>
    cases h' : (t.mapRows f).find k with
    | none => rfl
    | some r' =>
      obtain ⟨e, he, hkr⟩ := List.mem_map.mp (find_eq_some_iff.mp h')
      cases hkr
      rw [find_eq_some_iff.mpr he] at h
      cases h

/-- Rows written one after another: a row at the end was there before or is one of them. -/
theorem find_foldl {α : Type*} {f : Table κ ρ → α → Table κ ρ} {k : κ} {r : ρ} {P : α → Prop}
    (hf : ∀ t a, (f t a).find k = some r → t.find k = some r ∨ P a) {l : List α} {t : Table κ ρ}
    (h : (l.foldl f t).find k = some r) : t.find k = some r ∨ ∃ a ∈ l, P a := by
  induction l generalizing t with
  | nil => exact .inl h
  | cons a l ih =>
    rcases ih h with hr | ⟨b, hb, hp⟩
    · exact (hf t a hr).imp_right fun hp => ⟨a, List.mem_cons_self, hp⟩
    · exact .inr ⟨b, List.mem_cons_of_mem a hb, hp⟩

/-- Rows collected in their order, where a later one replaces an earlier one of its key. -/
def ofList (l : List (κ × ρ)) : Table κ ρ := l.foldl (fun t e => t.put e.1 e.2) ∅

theorem ofList_concat (l : List (κ × ρ)) (e : κ × ρ) : ofList (l ++ [e]) = (ofList l).put e.1 e.2 := by
  rw [ofList, List.foldl_append]
  rfl

theorem find_ofList_isSome (l : List (κ × ρ)) (k : κ) :
    ((ofList l).find k).isSome = true ↔ k ∈ l.map (·.1) := by
  induction l using List.reverseRecOn with
  | nil =>
    rw [ofList, List.foldl_nil, find_empty]
    simp
  | append_singleton l e ih =>
    rw [ofList_concat, find_put, List.map_append, List.mem_append, ← ih]
    split
    · rename_i h
      simp [h]
    · rename_i h
      simp [h]

/-- Where every key is listed once, each row is found. -/
theorem find_ofList_iff {l : List (κ × ρ)} (h : (l.map (·.1)).Nodup) {k : κ} {r : ρ} :
    (ofList l).find k = some r ↔ (k, r) ∈ l := by
  induction l using List.reverseRecOn with
  | nil =>
    rw [ofList, List.foldl_nil, find_empty]
    simp
  | append_singleton l e ih =>
    rw [List.map_append, List.nodup_append] at h
    have hne : (e.1, r) ∉ l := fun hmem =>
      h.2.2 e.1 (List.mem_map_of_mem (f := (·.1)) hmem) e.1 (by simp) rfl
    rw [ofList_concat, find_put, List.mem_append, List.mem_singleton]
    by_cases hk : k = e.1
    · subst hk
      simp [hne, Prod.ext_iff, eq_comm]
    · rw [if_neg hk, ih h.1]
      simp [hk, Prod.ext_iff]

end Table
end Diffz
