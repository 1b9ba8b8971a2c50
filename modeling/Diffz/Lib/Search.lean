import Mathlib.Data.List.Basic
import Mathlib.Data.List.DropRight
import Mathlib.Data.List.Infix
import Diffz.Lib.Text

/-!
# Searching a text

What `split_once` finds is the first occurrence of its separator, and what it does not find does not
occur. An occurrence in a text of two parts lies in one of them, or straddles the joint.
-/

set_option autoImplicit false

namespace Diffz

variable {α : Type} [DecidableEq α] {p a b l : List α}

/-- **The first occurrence.** There is none before it that overlaps it or not. -/
theorem splitOnce_eq_some_iff (hp : p ≠ []) :
    splitOnce p l = some (a, b) ↔ l = a ++ p ++ b ∧ ¬ p <:+: a ++ p.dropLast := by
  have hlast : p.dropLast.length < p.length := by
    have := List.length_pos_of_ne_nil hp
    simp only [List.length_dropLast]
    omega
  have hjoint : ∀ a : List α, a ++ p.dropLast <+: a ++ p ++ b := fun a => by
    rw [List.append_assoc, List.prefix_append_right_inj]
    exact (List.dropLast_prefix p).trans (List.prefix_append p b)
  induction l generalizing a with
  | nil =>
    constructor
    · intro h
      simp [splitOnce, hp] at h
    · rintro ⟨h, -⟩
      simp [hp] at h
  | cons x l ih =>
    rw [splitOnce]
    split
    · rename_i hpre
      rw [List.isPrefixOf_iff_prefix] at hpre
      obtain ⟨t, ht⟩ := hpre
      constructor
      · intro h
        obtain ⟨rfl, rfl⟩ := Prod.mk.inj (Option.some.inj h)
        refine ⟨by simp [← ht], fun hin => ?_⟩
        have := hin.length_le
        simp only [List.nil_append] at this
        omega
      · rintro ⟨hl, hfirst⟩
        cases a with
        | nil =>
          simp [hl]
        | cons y a =>
          -- The occurrence at the front would be before the one that is found.
          have hle : p.length ≤ (y :: a ++ p.dropLast).length := by
            simp only [List.length_append, List.length_cons, List.length_dropLast]
            omega
          have hfront : p <+: y :: a ++ p.dropLast :=
            List.prefix_of_prefix_length_le (hl ▸ ⟨t, ht⟩) (hjoint (y :: a)) hle
          exact absurd hfront.isInfix hfirst
    · rename_i hpre
      rw [List.isPrefixOf_iff_prefix] at hpre
      cases a with
      | nil =>
        constructor
        · intro h
          obtain ⟨r, -, hr⟩ := Option.map_eq_some_iff.mp h
          cases hr
        · rintro ⟨hl, -⟩
          exact absurd (hl ▸ List.prefix_append p b) hpre
      | cons y a =>
        have hstep : (splitOnce p l).map (fun ab => (x :: ab.1, ab.2)) = some (y :: a, b) ↔
            x = y ∧ splitOnce p l = some (a, b) := by
          cases splitOnce p l with
          | none => simp
          | some r =>
            obtain ⟨c, d⟩ := r
            simp [and_assoc]
        refine hstep.trans ?_
        constructor
        · rintro ⟨rfl, h⟩
          obtain ⟨rfl, hfirst⟩ := ih.mp h
          refine ⟨rfl, fun hin => ?_⟩
          rw [List.cons_append, List.infix_cons_iff] at hin
          rcases hin with hin | hin
          · exact hpre (hin.trans (hjoint (x :: a)))
          · exact hfirst hin
        · rintro ⟨hl, hfirst⟩
          obtain ⟨rfl, rfl⟩ := List.cons.inj hl
          exact ⟨rfl, ih.mpr ⟨rfl, fun hin => hfirst (List.infix_cons hin)⟩⟩

theorem splitOnce_eq_none_iff (hp : p ≠ []) : splitOnce p l = none ↔ ¬ p <:+: l := by
  induction l with
  | nil => simp [splitOnce, hp]
  | cons x l ih =>
    rw [splitOnce, List.infix_cons_iff, ← List.isPrefixOf_iff_prefix]
    split
    · simp [*]
    · simp [*]

/-- A separator that was found at a place is found there again, whatever follows it. -/
theorem splitOnce_again (hp : p ≠ []) (h : splitOnce p l = some (a, b)) (c : List α) :
    splitOnce p (a ++ p ++ c) = some (a, c) :=
  (splitOnce_eq_some_iff hp).mpr ⟨rfl, ((splitOnce_eq_some_iff hp).mp h).2⟩

/-- What is found after a text that the separator does not begin in. -/
def prepend (a : List α) (o : Option (List α × List α)) : Option (List α × List α) :=
  o.map fun ab => (a ++ ab.1, ab.2)

omit [DecidableEq α] in
@[simp] theorem prepend_none (a : List α) : prepend a none = none := rfl

omit [DecidableEq α] in
@[simp] theorem prepend_some (a u v : List α) : prepend a (some (u, v)) = some (a ++ u, v) := rfl

omit [DecidableEq α] in
@[simp] theorem prepend_nil (o : Option (List α × List α)) : prepend [] o = o := by
  cases o <;> rfl

omit [DecidableEq α] in
@[simp] theorem prepend_prepend (a c : List α) (o : Option (List α × List α)) :
    prepend a (prepend c o) = prepend (a ++ c) o := by
  cases o <;> simp [prepend]

theorem splitOnce_cons_of_not_prefixed {x : α} (h : ¬ p <+: x :: l) :
    splitOnce p (x :: l) = prepend [x] (splitOnce p l) := by
  rw [splitOnce, if_neg (by rwa [List.isPrefixOf_iff_prefix])]
  rfl

theorem rsplitOnce_eq_some (hp : p ≠ []) (h : rsplitOnce p l = some (a, b)) : l = a ++ p ++ b := by
  obtain ⟨⟨c, d⟩, hcd, hab⟩ := Option.map_eq_some_iff.mp h
  obtain ⟨rfl, rfl⟩ := Prod.mk.inj hab
  have hl := ((splitOnce_eq_some_iff (by simpa using hp)).mp hcd).1
  rw [← List.reverse_reverse l, hl]
  simp

omit [DecidableEq α] in
/-- An occurrence lies in one of two parts, or straddles their joint. -/
theorem infix_append_cases (h : p <:+: a ++ b) : p <:+: a ∨ p <:+: b ∨
    ∃ k, 0 < k ∧ k < p.length ∧ p.take k <:+ a ∧ p.drop k <+: b := by
  obtain ⟨s, t, h⟩ := h
  rw [List.append_assoc] at h
  rcases List.append_eq_append_iff.mp h with ⟨m, ha, hm⟩ | ⟨m, hs, hb⟩
  · rcases List.append_eq_append_iff.mp hm with ⟨n, hn, ht⟩ | ⟨n, hn, hb⟩
    · left
      exact ⟨s, n, by rw [ha, hn, List.append_assoc]⟩
    · rcases List.eq_nil_or_concat m with rfl | ⟨m', x, hm'⟩
      · right; left
        exact ⟨[], t, by simp [hn, hb]⟩
      · cases n with
        | nil =>
          left
          exact ⟨s, [], by simp [ha, hn]⟩
        | cons y n =>
          right; right
          refine ⟨m.length, ?_, ?_, ?_, ?_⟩
          · simp [hm']
          · simp [hn]
          · rw [hn, List.take_left, ha]
            exact List.suffix_append s m
          · rw [hn, List.drop_left, hb]
            exact List.prefix_append (y :: n) t
  · right; left
    exact ⟨m, t, by rw [hb, List.append_assoc]⟩

omit [DecidableEq α] in
/-- What is dropped at one end and what is dropped at the other. -/
theorem dropWhile_rdropWhile (q : α → Bool) (l : List α) :
    (l.dropWhile q).rdropWhile q = (l.rdropWhile q).dropWhile q := by
  induction l using List.reverseRecOn with
  | nil => rfl
  | append_singleton l x ih =>
    rw [List.dropWhile_append]
    by_cases hx : q x
    · rw [List.rdropWhile_concat_pos _ _ _ hx, ← ih]
      split
      · rename_i hnil
        rw [List.isEmpty_iff] at hnil
        simp [hnil, hx]
      · rw [List.rdropWhile_concat_pos _ _ _ hx]
    · rw [List.rdropWhile_concat_neg _ _ _ hx, List.dropWhile_append]
      split
      · simp [hx]
      · rw [List.rdropWhile_concat_neg _ _ _ hx]

/-- `trim_end_matches`: the suffix is taken off as often as it is there. -/
def trimEndMatches (p l : List α) : List α :=
  match stripSuffix p l with
  | none => l
  | some rest => if rest.length < l.length then trimEndMatches p rest else l
termination_by l.length

@[simp] theorem stripSuffix_append (p l : List α) : stripSuffix p (l ++ p) = some l := by
  simp [stripSuffix]

/-- It is taken off once where what is left does not end in it. -/
theorem trimEndMatches_append (hp : p ≠ []) (h : stripSuffix p l = none) :
    trimEndMatches p (l ++ p) = l := by
  have hlt : l.length < (l ++ p).length := by
    have hpos := List.length_pos_of_ne_nil hp
    rw [List.length_append]
    omega
  rw [trimEndMatches, stripSuffix_append]
  dsimp only
  rw [if_pos hlt, trimEndMatches, h]

/-! ## What two lists begin with -/

/-- How many elements two lists share at their beginning. -/
def sharedLength (a b : List α) : Nat := ((a.zip b).takeWhile fun e => decide (e.1 = e.2)).length

theorem sharedLength_le (a b : List α) :
    sharedLength a b ≤ a.length ∧ sharedLength a b ≤ b.length := by
  have hle : sharedLength a b ≤ (a.zip b).length := (List.takeWhile_sublist _).length_le
  rw [List.length_zip] at hle
  omega

theorem take_sharedLength (a b : List α) :
    a.take (sharedLength a b) = b.take (sharedLength a b) := by
  induction a generalizing b with
  | nil => simp [sharedLength]
  | cons x a ih =>
    cases b with
    | nil => simp [sharedLength]
    | cons y b =>
      have ih := ih b
      rw [sharedLength] at ih ⊢
      rw [List.zip_cons_cons, List.takeWhile_cons]
      split
      · rename_i heq
        have hxy : x = y := of_decide_eq_true heq
        rw [List.length_cons, List.take_succ_cons, List.take_succ_cons, ih, hxy]
      · rfl

theorem le_sharedLength (ha : p <+: a) (hb : p <+: b) : p.length ≤ sharedLength a b := by
  obtain ⟨a, rfl⟩ := ha
  obtain ⟨b, rfl⟩ := hb
  induction p with
  | nil => exact Nat.zero_le _
  | cons x p ih =>
    rw [sharedLength] at ih ⊢
    rw [List.cons_append, List.cons_append, List.zip_cons_cons, List.takeWhile_cons,
      if_pos (decide_eq_true rfl)]
    exact Nat.succ_le_succ ih

omit [DecidableEq α] in
theorem findIdx?_split {q : α → Bool} {i : Nat} (h : l.findIdx? q = some i) :
    ∃ a x b, l = a ++ x :: b ∧ q x = true ∧ i = a.length := by
  obtain ⟨hi, hq, -⟩ := List.findIdx?_eq_some_iff_getElem.mp h
  refine ⟨l.take i, l[i], l.drop (i + 1), ?_, hq, ?_⟩
  · rw [← List.drop_eq_getElem_cons hi, List.take_append_drop]
  · rw [List.length_take, Nat.min_eq_left hi.le]

/-- `Iterator::rposition`. -/
def rposition (q : α → Bool) : List α → Option Nat
  | [] => none
  | x :: l =>
    match rposition q l with
    | some i => some (i + 1)
    | none => if q x then some 0 else none

omit [DecidableEq α] in
theorem rposition_eq_none {q : α → Bool} (h : rposition q l = none) : ∀ x ∈ l, q x = false := by
  induction l with
  | nil => exact List.forall_mem_nil _
  | cons x l ih =>
    rw [rposition] at h
    cases hl : rposition q l with
    | some i => rw [hl] at h; cases h
    | none =>
      rw [hl] at h
      refine List.forall_mem_cons.mpr ⟨?_, ih hl⟩
      cases hx : q x with
      | false => rfl
      | true => rw [hx] at h; cases h

omit [DecidableEq α] in
/-- The last element of its kind: none after it is one. -/
theorem rposition_split {q : α → Bool} {i : Nat} (h : rposition q l = some i) :
    ∃ a x b, l = a ++ x :: b ∧ q x = true ∧ i = a.length ∧ ∀ y ∈ b, q y = false := by
  induction l generalizing i with
  | nil => cases h
  | cons x l ih =>
    rw [rposition] at h
    cases hl : rposition q l with
    | some j =>
      rw [hl] at h
      cases h
      obtain ⟨a, y, b, rfl, hy, rfl, hb⟩ := ih hl
      exact ⟨x :: a, y, b, rfl, hy, rfl, hb⟩
    | none =>
      rw [hl] at h
      dsimp only at h
      split at h
      · rename_i hx
        cases h
        exact ⟨[], x, l, rfl, hx, rfl, rposition_eq_none hl⟩
      · cases h

end Diffz
