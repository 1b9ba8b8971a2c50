import Mathlib.Data.List.Infix
import Mathlib.Data.List.Basic

/-!
# Longest common subsequences

The table of the lengths of the longest common subsequences of all pairs of tails, filled from the
end, and the walk through it that lists the matched index pairs. `Alignment` is what the walk
computes: the two lists cut at their matches. A walk that goes where the table is larger finds as
many matches as any common subsequence has (`walk_length`), and therefore leaves no two equal
elements opposite each other in a gap (`Alignment.tight`).

The entries of the table may be kept in a machine word: `wrap` is what the word makes of a number.
-/

set_option autoImplicit false

universe u

namespace Diffz

variable {α : Type u} [DecidableEq α] {a b l : List α} {x y : α}

/-! ## Lengths -/

/-- One row of `lcsLength`, where `f` is the row below. -/
def lcsRow (x : α) (f : List α → Nat) : List α → Nat
  | [] => 0
  | y :: b => if x = y then 1 + f b else max (f (y :: b)) (lcsRow x f b)

/-- The length of a longest common subsequence. -/
def lcsLength : List α → List α → Nat
  | [] => fun _ => 0
  | x :: a => lcsRow x (lcsLength a)

@[simp] theorem lcsLength_nil_left (b : List α) : lcsLength [] b = 0 := rfl

@[simp] theorem lcsLength_nil_right (a : List α) : lcsLength a [] = 0 := by
  cases a <;> rfl

theorem lcsLength_cons (x : α) (a : List α) (y : α) (b : List α) :
    lcsLength (x :: a) (y :: b) =
      if x = y then 1 + lcsLength a b else max (lcsLength a (y :: b)) (lcsLength (x :: a) b) := rfl

/-- No common subsequence is longer. -/
theorem length_le_lcsLength (ha : l.Sublist a) (hb : l.Sublist b) : l.length ≤ lcsLength a b := by
  induction a generalizing l b with
  | nil => simp [List.sublist_nil.mp ha]
  | cons x a iha =>
    induction b generalizing l with
    | nil => simp [List.sublist_nil.mp hb]
    | cons y b ihb =>
      rw [lcsLength_cons]
      split
      · cases l with
        | nil => simp
        | cons z l =>
          have := iha ha.tail hb.tail
          simp only [List.length_cons, List.tail_cons] at this ⊢
          omega
      · rename_i hne
        cases ha with
        | cons _ ha => exact (iha ha hb).trans (le_max_left _ _)
        | cons_cons _ ha =>
          cases hb with
          | cons _ hb => exact (ihb (ha.cons_cons x) hb).trans (le_max_right _ _)
          | cons_cons _ _ => exact absurd rfl hne

/-- There is a common subsequence of this length. -/
theorem exists_lcs (a b : List α) :
    ∃ l : List α, l.Sublist a ∧ l.Sublist b ∧ l.length = lcsLength a b := by
  induction a generalizing b with
  | nil => exact ⟨[], .slnil, List.nil_sublist b, rfl⟩
  | cons x a iha =>
    induction b with
    | nil => exact ⟨[], List.nil_sublist _, .slnil, by simp⟩
    | cons y b ihb =>
      rw [lcsLength_cons]
      split
      · rename_i h
        obtain ⟨l, ha, hb, hl⟩ := iha b
        exact ⟨x :: l, ha.cons_cons x, h ▸ hb.cons_cons x, by simp [hl, Nat.add_comm]⟩
      · rcases le_total (lcsLength (x :: a) b) (lcsLength a (y :: b)) with h | h
        · obtain ⟨l, ha, hb, hl⟩ := iha (y :: b)
          exact ⟨l, ha.cons x, hb, by rw [hl, max_eq_left h]⟩
        · obtain ⟨l, ha, hb, hl⟩ := ihb
          exact ⟨l, ha, hb.cons y, by rw [hl, max_eq_right h]⟩

theorem lcsLength_le (a b : List α) : lcsLength a b ≤ min a.length b.length := by
  obtain ⟨l, ha, hb, hl⟩ := exists_lcs a b
  rw [← hl]
  exact le_min ha.length_le hb.length_le

/-! ## The table -/

/-- One row of the table, from the row below it. -/
def tableRow (wrap : Nat → Nat) (x : α) : List α → List Nat → List Nat
  | [], _ => [0]
  | y :: b, below =>
    let right := tableRow wrap x b below.tail
    (if x = y then wrap (1 + below.tail.headD 0) else max (below.headD 0) (right.headD 0)) :: right

/-- The rows of the table, from the first to the one below the last. -/
def lcsTable (wrap : Nat → Nat) : List α → List α → List (List Nat)
  | [], b => [List.replicate (b.length + 1) 0]
  | x :: a, b =>
    let below := lcsTable wrap a b
    tableRow wrap x b (below.headD []) :: below

/-- `dp[i * cols + j]`. -/
def entry (table : List (List Nat)) (i j : Nat) : Nat := (table.getD i []).getD j 0

omit [DecidableEq α] in
theorem tails_headD (b : List α) (f : List α → Nat) : (b.tails.map f).headD 0 = f b := by
  cases b <;> rfl

theorem tableRow_eq {wrap : Nat → Nat} (x : α) (a b : List α)
    (hwrap : ∀ n ≤ min (a.length + 1) b.length, wrap n = n) :
    tableRow wrap x b (b.tails.map (lcsLength a)) = b.tails.map (lcsLength (x :: a)) := by
  induction b with
  | nil => rfl
  | cons y b ih =>
    have hright := ih fun n hn => hwrap n (hn.trans (by simp only [List.length_cons]; omega))
    have hle : 1 + lcsLength a b ≤ min (a.length + 1) (y :: b).length := by
      have := lcsLength_le a b
      simp only [List.length_cons]
      omega
    simp only [List.tails_cons, List.map_cons, tableRow, List.tail_cons, List.headD_cons, hright,
      tails_headD, hwrap _ hle, lcsLength_cons]

/-- **The table has the lengths**, where its words hold all numbers up to the length of the shorter
list. -/
theorem lcsTable_eq {wrap : Nat → Nat} (a b : List α)
    (hwrap : ∀ n ≤ min a.length b.length, wrap n = n) :
    lcsTable wrap a b = a.tails.map fun a' => b.tails.map (lcsLength a') := by
  induction a with
  | nil =>
    have hzero : (b.tails.map (lcsLength [])) = List.replicate (b.length + 1) 0 := by
      rw [List.eq_replicate_iff]
      simp
    simp [lcsTable, hzero]
  | cons x a ih =>
    have hbelow := ih fun n hn => hwrap n (hn.trans (by simp only [List.length_cons]; omega))
    have hhead : (lcsTable wrap a b).headD [] = b.tails.map (lcsLength a) := by
      rw [hbelow]
      cases a <;> rfl
    rw [lcsTable, hhead, tableRow_eq x a b hwrap, hbelow, List.tails_cons, List.map_cons]

theorem entry_lcsTable {wrap : Nat → Nat} {a b : List α}
    (hwrap : ∀ n ≤ min a.length b.length, wrap n = n) {i j : Nat} (hi : i ≤ a.length)
    (hj : j ≤ b.length) : entry (lcsTable wrap a b) i j = lcsLength (a.drop i) (b.drop j) := by
  have hi' : i < a.tails.length := by simpa using Nat.lt_succ_of_le hi
  have hj' : j < b.tails.length := by simpa using Nat.lt_succ_of_le hj
  rw [entry, lcsTable_eq a b hwrap, List.getD_eq_getElem?_getD, List.getD_eq_getElem?_getD,
    List.getElem?_map, List.getElem?_eq_getElem hi', List.getElem_tails, Option.map_some,
    Option.getD_some, List.getElem?_map, List.getElem?_eq_getElem hj', List.getElem_tails]
  rfl

/-! ## The walk -/

/-- The walk in the row of `x`, with the walk in the next row. -/
def walkRow (down : Nat → Nat → Bool) (x : α) (next : Nat → List α → List (Nat × Nat)) (i : Nat) :
    Nat → List α → List (Nat × Nat)
  | _, [] => []
  | j, y :: b =>
    if x = y then (i, j) :: next (j + 1) b
    else if down i j then next j (y :: b)
    else walkRow down x next i (j + 1) b

/-- The matched index pairs, for the tails of two lists from `i` and `j` on. -/
def walk (down : Nat → Nat → Bool) : Nat → Nat → List α → List α → List (Nat × Nat)
  | _, _, [], _ => []
  | i, j, x :: a, b => walkRow down x (fun j b => walk down (i + 1) j a b) i j b

/-- Two lists cut at their matches, with what `gap` says of the parts between them. -/
inductive Alignment (gap : List α → List α → Prop) :
    Nat → Nat → List α → List α → List (Nat × Nat) → Prop
  | done {i j : Nat} {a b : List α} (h : gap a b) : Alignment gap i j a b []
  | pair {i j : Nat} {s t a b : List α} {x : α} {m : List (Nat × Nat)} (h : gap s t)
      (rest : Alignment gap (i + s.length + 1) (j + t.length + 1) a b m) :
      Alignment gap i j (s ++ x :: a) (t ++ x :: b) ((i + s.length, j + t.length) :: m)

/-- All gaps are allowed. -/
def anyGap (_ _ : List α) : Prop := True

/-- No two equal elements stand opposite each other. -/
def Opposed (a b : List α) : Prop := ∀ p ∈ a.zip b, p.1 ≠ p.2

omit [DecidableEq α] in
theorem Opposed.ne (h : Opposed a b) {t : Nat} (ha : a[t]? = some x) (hb : b[t]? = some y) :
    x ≠ y :=
  h (x, y) (List.mem_of_getElem? (List.getElem?_zip_eq_some.mpr ⟨ha, hb⟩))

namespace Alignment

variable {i j : Nat} {m : List (Nat × Nat)}

omit [DecidableEq α] in
theorem skip_left (h : Alignment anyGap (i + 1) j a b m) :
    Alignment anyGap i j (x :: a) b m := by
  cases h with
  | done _ => exact .done trivial
  | @pair _ _ s t a b z m _ rest =>
    have hi : i + 1 + s.length = i + (x :: s).length := by
      simp only [List.length_cons]
      omega
    rw [hi] at rest ⊢
    exact .pair (s := x :: s) trivial rest

omit [DecidableEq α] in
theorem skip_right (h : Alignment anyGap i (j + 1) a b m) :
    Alignment anyGap i j a (y :: b) m := by
  cases h with
  | done _ => exact .done trivial
  | @pair _ _ s t a b z m _ rest =>
    have hj : j + 1 + t.length = j + (y :: t).length := by
      simp only [List.length_cons]
      omega
    rw [hj] at rest ⊢
    exact .pair (t := y :: t) trivial rest

omit [DecidableEq α] in
/-- The matches are a common subsequence. -/
theorem exists_sublist {gap : List α → List α → Prop} (h : Alignment gap i j a b m) :
    ∃ l : List α, l.Sublist a ∧ l.Sublist b ∧ l.length = m.length := by
  induction h with
  | done _ => exact ⟨[], List.nil_sublist _, List.nil_sublist _, rfl⟩
  | pair _ _ ih =>
    obtain ⟨l, ha, hb, hl⟩ := ih
    exact ⟨_ :: l, (ha.cons_cons _).trans (List.sublist_append_right _ _),
      (hb.cons_cons _).trans (List.sublist_append_right _ _), by simp [hl]⟩

theorem length_le {gap : List α → List α → Prop} (h : Alignment gap i j a b m) :
    m.length ≤ lcsLength a b := by
  obtain ⟨l, ha, hb, hl⟩ := h.exists_sublist
  exact hl ▸ length_le_lcsLength ha hb

omit [DecidableEq α] in
/-- Equal elements at one place of two lists are a common subsequence. -/
theorem exists_common {p : α × α} (hp : p ∈ a.zip b) (heq : p.1 = p.2) :
    [p.1].Sublist a ∧ [p.1].Sublist b := by
  obtain ⟨ha, hb⟩ := List.of_mem_zip hp
  exact ⟨List.singleton_sublist.mpr ha, List.singleton_sublist.mpr (heq ▸ hb)⟩

/-- **As many matches as there can be leave nothing to match**: equal elements that stand opposite
each other in a gap would be one more. -/
theorem tight (h : Alignment anyGap i j a b m) (hm : lcsLength a b ≤ m.length) :
    Alignment Opposed i j a b m := by
  induction h with
  | done _ =>
    refine .done fun p hp heq => ?_
    obtain ⟨ha, hb⟩ := exists_common hp heq
    have := (length_le_lcsLength ha hb).trans hm
    simp at this
  | @pair i j s t a b x m _ rest ih =>
    obtain ⟨l, ha, hb, hl⟩ := exists_lcs a b
    have hfull := (length_le_lcsLength ((ha.cons_cons x).trans (List.sublist_append_right s _))
      ((hb.cons_cons x).trans (List.sublist_append_right t _))).trans hm
    refine .pair (fun p hp heq => ?_) (ih ?_)
    · obtain ⟨hpa, hpb⟩ := exists_common hp heq
      obtain ⟨l', ha', hb', hl'⟩ := rest.exists_sublist
      have := (length_le_lcsLength (hpa.append (ha'.cons_cons x))
        (hpb.append (hb'.cons_cons x))).trans hm
      simp only [List.length_append, List.length_cons, List.length_nil, hl'] at this
      omega
    · simp only [List.length_cons, hl] at hfull
      omega

end Alignment

theorem walk_nil_right (down : Nat → Nat → Bool) (i j : Nat) (a : List α) :
    walk down i j a [] = [] := by
  cases a <;> rfl

theorem walk_cons (down : Nat → Nat → Bool) (i j : Nat) (x : α) (a : List α) (y : α) (b : List α) :
    walk down i j (x :: a) (y :: b) =
      if x = y then (i, j) :: walk down (i + 1) (j + 1) a b
      else if down i j then walk down (i + 1) j a (y :: b)
      else walk down i (j + 1) (x :: a) b := rfl

/-- The walk cuts both lists at equal elements, whichever way it goes. -/
theorem walk_alignment (down : Nat → Nat → Bool) (i j : Nat) (a b : List α) :
    Alignment anyGap i j a b (walk down i j a b) := by
  induction a generalizing i j b with
  | nil => exact .done trivial
  | cons x a iha =>
    induction b generalizing j with
    | nil => exact .done trivial
    | cons y b ihb =>
      rw [walk_cons]
      split
      · rename_i h
        subst h
        exact .pair (s := []) (t := []) trivial (iha (i + 1) (j + 1) b)
      split
      · exact (iha (i + 1) j (y :: b)).skip_left
      · exact (ihb (j + 1)).skip_right

/-- The walk goes where the rest has the longer common subsequence. -/
def Guided (down : Nat → Nat → Bool) (a b : List α) : Prop :=
  ∀ i j, i < a.length → j < b.length →
    (down i j = true →
        lcsLength (a.drop i) (b.drop (j + 1)) ≤ lcsLength (a.drop (i + 1)) (b.drop j)) ∧
      (down i j = false →
        lcsLength (a.drop (i + 1)) (b.drop j) ≤ lcsLength (a.drop i) (b.drop (j + 1)))

/-- **A guided walk finds a longest common subsequence.** -/
theorem walk_length {down : Nat → Nat → Bool} {A B : List α} (hdown : Guided down A B) {i j : Nat}
    (ha : A.drop i = a) (hb : B.drop j = b) : (walk down i j a b).length = lcsLength a b := by
  induction a generalizing i j b with
  | nil => rfl
  | cons x a iha =>
    have hi : i < A.length := by
      have := congrArg List.length ha
      simp only [List.length_drop, List.length_cons] at this
      omega
    have ha' : A.drop (i + 1) = a := by rw [← List.tail_drop, ha, List.tail_cons]
    induction b generalizing j with
    | nil => simp [walk_nil_right]
    | cons y b ihb =>
      have hj : j < B.length := by
        have := congrArg List.length hb
        simp only [List.length_drop, List.length_cons] at this
        omega
      have hb' : B.drop (j + 1) = b := by rw [← List.tail_drop, hb, List.tail_cons]
      obtain ⟨htrue, hfalse⟩ := hdown i j hi hj
      rw [ha, ha', hb, hb'] at htrue hfalse
      rw [walk_cons, lcsLength_cons]
      split
      · rw [List.length_cons, iha ha' hb', Nat.add_comm]
      split
      · rename_i h
        rw [iha ha' hb, max_eq_left (htrue h)]
      · rename_i h
        rw [ihb hb', max_eq_right (hfalse (by simpa using h))]

/-- A walk that follows the table, where its words hold the lengths, leaves nothing to match. -/
theorem walk_opposed {wrap : Nat → Nat} (a b : List α)
    (hwrap : ∀ n ≤ min a.length b.length, wrap n = n) :
    Alignment Opposed 0 0 a b (walk (fun i j => decide (entry (lcsTable wrap a b) i (j + 1) ≤
      entry (lcsTable wrap a b) (i + 1) j)) 0 0 a b) := by
  refine (walk_alignment _ 0 0 a b).tight (walk_length ?_ List.drop_zero List.drop_zero).ge
  intro i j hi hj
  have hright := entry_lcsTable hwrap hi.le (Nat.succ_le_of_lt hj)
  have hbelow := entry_lcsTable hwrap (Nat.succ_le_of_lt hi) hj.le
  beta_reduce
  rw [hright, hbelow, decide_eq_true_eq, decide_eq_false_iff_not]
  exact ⟨id, fun h => Nat.le_of_lt (Nat.lt_of_not_le h)⟩

/-- Nothing is left between the matches of a list with itself. -/
theorem walk_self (down : Nat → Nat → Bool) (i j : Nat) (a : List α) :
    Alignment (fun s t => s = [] ∧ t = []) i j a a (walk down i j a a) := by
  induction a generalizing i j with
  | nil => exact .done ⟨rfl, rfl⟩
  | cons x a ih =>
    rw [walk_cons, if_pos rfl]
    exact .pair (s := []) (t := []) ⟨rfl, rfl⟩ (ih (i + 1) (j + 1))

end Diffz
