import Diffz.Lib.Lcs

/-!
# The table in one vector

The table of the lengths in the rows of one vector, filled backwards cell by cell, and the walk that
reads it. Every access is checked: a result is `none` where an index is out of range. None is
(`lcsFlat_eq`), and the pairs that are returned are a longest matching (`walk_longest`).
-/

set_option autoImplicit false

namespace Diffz

variable {α : Type} [DecidableEq α]

section Table

variable (wrap : Nat → Nat) (a b : List α)

/-- The body of the loops over `i` and `j`. -/
def fillCell (i j : Nat) (dp : List Nat) : Option (List Nat) := do
  let cols := b.length + 1
  let x ← a[i]?
  let y ← b[j]?
  let n ←
    if x = y then dp[(i + 1) * cols + (j + 1)]?.map fun n => wrap (1 + n)
    else do
      let below ← dp[(i + 1) * cols + j]?
      let right ← dp[i * cols + (j + 1)]?
      some (max below right)
  if i * cols + j < dp.length then some (dp.set (i * cols + j) n) else none

/-- The loop over `j`, from the last column down. -/
def fillRow (i : Nat) : Nat → List Nat → Option (List Nat)
  | 0, dp => some dp
  | j + 1, dp => (fillCell wrap a b i j dp).bind (fillRow i j)

/-- The loop over `i`, from the last row down. -/
def fillTable : Nat → List Nat → Option (List Nat)
  | 0, dp => some dp
  | i + 1, dp => (fillRow wrap a b i b.length dp).bind (fillTable i)

/-- Whether the walk goes down from here; `guard` is asked before the table is. -/
def goesDown (guard : Nat → Bool) (dp : List Nat) (i j : Nat) : Option Bool :=
  if guard i then do
    let below ← dp[(i + 1) * (b.length + 1) + j]?
    let right ← dp[i * (b.length + 1) + (j + 1)]?
    some (decide (right ≤ below))
  else some false

def walkLoop (down : Nat → Nat → Option Bool) (i j : Nat) (out : List (Nat × Nat)) :
    Option (List (Nat × Nat)) :=
  if h : i < a.length ∧ j < b.length then
    if a[i] = b[j] then walkLoop down (i + 1) (j + 1) (out ++ [(i, j)])
    else
      match down i j with
      | none => none
      | some true => walkLoop down (i + 1) j out
      | some false => walkLoop down i (j + 1) out
  else some out
termination_by a.length - i + (b.length - j)

/-- The table, and the walk through it. -/
def lcsFlat (guard : Nat → Bool) : Option (List (Nat × Nat)) :=
  (fillTable wrap a b a.length (List.replicate ((a.length + 1) * (b.length + 1)) 0)).bind fun dp =>
    walkLoop a b (goesDown b guard dp) 0 0 []

end Table

variable {wrap : Nat → Nat} {a b : List α} {i j n : Nat} {dp : List Nat}

/-! ## The table is filled -/

theorem flat_lt {cols rows i j : Nat} (hi : i < rows) (hj : j < cols) :
    i * cols + j < rows * cols := by
  have hle : (i + 1) * cols ≤ rows * cols := Nat.mul_le_mul_right cols hi
  rw [Nat.succ_mul] at hle
  omega

theorem flat_inj {cols i j i' j' : Nat} (hj : j < cols) (hj' : j' < cols)
    (h : i * cols + j = i' * cols + j') : i = i' ∧ j = j' := by
  rcases Nat.lt_trichotomy i i' with hlt | rfl | hlt
  · have := flat_lt hlt hj
    omega
  · exact ⟨rfl, Nat.add_left_cancel h⟩
  · have := flat_lt hlt hj'
    omega

/-- The cells after `(i, j)`, and those of the last column, have their lengths. -/
structure Filled (a b : List α) (i j : Nat) (dp : List Nat) : Prop where
  length : dp.length = (a.length + 1) * (b.length + 1)
  cell : ∀ i' j', i' ≤ a.length → j' ≤ b.length → (i < i' ∨ i' = i ∧ j ≤ j' ∨ j' = b.length) →
    dp[i' * (b.length + 1) + j']? = some (lcsLength (a.drop i') (b.drop j'))

theorem filled_start : Filled a b a.length 0
    (List.replicate ((a.length + 1) * (b.length + 1)) 0) where
  length := List.length_replicate
  cell i j hi hj h := by
    rw [List.getElem?_replicate,
      if_pos (flat_lt (Nat.lt_succ_of_le hi) (Nat.lt_succ_of_le hj))]
    rcases h with hlt | ⟨rfl, -⟩ | rfl
    · omega
    · rw [List.drop_length, lcsLength_nil_left]
    · rw [List.drop_length, lcsLength_nil_right]

theorem fillCell_filled (hwrap : ∀ n ≤ min a.length b.length, wrap n = n) (hi : i < a.length)
    (hj : j < b.length) (h : Filled a b i (j + 1) dp) :
    ∃ dp', fillCell wrap a b i j dp = some dp' ∧ Filled a b i j dp' := by
  have hcell : i * (b.length + 1) + j < dp.length := by
    rw [h.length]
    exact flat_lt (hi.trans (Nat.lt_succ_self _)) (hj.trans (Nat.lt_succ_self _))
  have hdiag := h.cell (i + 1) (j + 1) hi hj (.inl (Nat.lt_succ_self i))
  have hbelow := h.cell (i + 1) j hi hj.le (.inl (Nat.lt_succ_self i))
  have hright := h.cell i (j + 1) hi.le hj (.inr (.inl ⟨rfl, le_refl _⟩))
  have hlength : lcsLength (a.drop i) (b.drop j) =
      if a[i] = b[j] then 1 + lcsLength (a.drop (i + 1)) (b.drop (j + 1))
      else max (lcsLength (a.drop (i + 1)) (b.drop j)) (lcsLength (a.drop i) (b.drop (j + 1))) := by
    rw [List.drop_eq_getElem_cons hi, List.drop_eq_getElem_cons hj, lcsLength_cons]
  refine ⟨dp.set (i * (b.length + 1) + j) (lcsLength (a.drop i) (b.drop j)), ?_, ?_, ?_⟩
  · rw [fillCell, List.getElem?_eq_getElem hi, List.getElem?_eq_getElem hj]
    simp only [Option.bind_eq_bind, Option.bind_some, hdiag, hbelow, hright, hlength, hcell,
      if_true, Option.map_some]
    split
    · rename_i heq
      have hle := lcsLength_le (a.drop i) (b.drop j)
      rw [hlength, if_pos heq, List.length_drop, List.length_drop] at hle
      rw [hwrap _ (by omega)]
    · rfl
  · rw [List.length_set, h.length]
  · intro i' j' hi' hj' hdone
    rw [List.getElem?_set]
    split
    · rename_i heq
      obtain ⟨rfl, rfl⟩ := flat_inj (Nat.lt_succ_of_lt hj) (Nat.lt_succ_of_le hj') heq
      rfl
    · rename_i hne
      apply h.cell i' j' hi' hj'
      rcases hdone with hlt | ⟨rfl, hle⟩ | rfl
      · exact .inl hlt
      · rcases Nat.eq_or_lt_of_le hle with rfl | hlt
        · exact absurd rfl hne
        · exact .inr (.inl ⟨rfl, hlt⟩)
      · exact .inr (.inr rfl)

theorem fillRow_filled (hwrap : ∀ n ≤ min a.length b.length, wrap n = n) (hi : i < a.length)
    (hj : j ≤ b.length) (h : Filled a b i j dp) :
    ∃ dp', fillRow wrap a b i j dp = some dp' ∧ Filled a b i 0 dp' := by
  induction j generalizing dp with
  | zero => exact ⟨dp, rfl, h⟩
  | succ j ih =>
    obtain ⟨dp', hfill, h'⟩ := fillCell_filled hwrap hi hj h
    obtain ⟨dp'', hrest, h''⟩ := ih (Nat.le_of_succ_le hj) h'
    exact ⟨dp'', by rw [fillRow, hfill, Option.bind_some, hrest], h''⟩

/-- The next row begins with its last column. -/
theorem Filled.next (h : Filled a b (i + 1) 0 dp) : Filled a b i b.length dp where
  length := h.length
  cell i' j' hi' hj' hdone := by
    apply h.cell i' j' hi' hj'
    rcases hdone with hlt | ⟨-, hle⟩ | rfl
    · rcases Nat.eq_or_lt_of_le hlt with rfl | hlt
      · exact .inr (.inl ⟨rfl, Nat.zero_le _⟩)
      · exact .inl hlt
    · exact .inr (.inr (Nat.le_antisymm hj' hle))
    · exact .inr (.inr rfl)

/-- **No index is out of range while the table is filled**, and then it has the lengths. -/
theorem fillTable_filled (hwrap : ∀ n ≤ min a.length b.length, wrap n = n) (hi : i ≤ a.length)
    (h : Filled a b i 0 dp) :
    ∃ dp', fillTable wrap a b i dp = some dp' ∧ Filled a b 0 0 dp' := by
  induction i generalizing dp with
  | zero => exact ⟨dp, rfl, h⟩
  | succ i ih =>
    obtain ⟨dp', hrow, h'⟩ := fillRow_filled hwrap hi (le_refl _) h.next
    obtain ⟨dp'', hrest, h''⟩ := ih (Nat.le_of_succ_le hi) h'
    exact ⟨dp'', by rw [fillTable, hrow, Option.bind_some, hrest], h''⟩

/-! ## The walk -/

/-- The walk of the lengths, where `guard` lets it go down. -/
def lengthDown (guard : Nat → Bool) (a b : List α) (i j : Nat) : Bool :=
  guard i && decide (lcsLength (a.drop i) (b.drop (j + 1)) ≤ lcsLength (a.drop (i + 1)) (b.drop j))

theorem goesDown_eq (h : Filled a b 0 0 dp) (guard : Nat → Bool) (hi : i < a.length)
    (hj : j < b.length) : goesDown b guard dp i j = some (lengthDown guard a b i j) := by
  rw [goesDown, lengthDown]
  split
  · rename_i hg
    rw [h.cell (i + 1) j hi hj.le (.inl (Nat.succ_pos i)),
      h.cell i (j + 1) hi.le hj (by omega), hg, Bool.true_and]
    rfl
  · rename_i hg
    rw [Bool.eq_false_iff.mpr hg, Bool.false_and]

theorem walkLoop_eq {down : Nat → Nat → Option Bool} {down' : Nat → Nat → Bool}
    (hdown : ∀ i j, i < a.length → j < b.length → down i j = some (down' i j)) (i j : Nat)
    (out : List (Nat × Nat)) :
    walkLoop a b down i j out = some (out ++ walk down' i j (a.drop i) (b.drop j)) := by
  fun_induction walkLoop a b down i j out with
  | case1 i j out h heq ih =>
    rw [ih, List.drop_eq_getElem_cons h.1, List.drop_eq_getElem_cons h.2, walk_cons, if_pos heq,
      List.append_assoc]
    rfl
  | case2 i j out h hne hnone =>
    rw [hdown i j h.1 h.2] at hnone
    cases hnone
  | case3 i j out h hne htrue ih =>
    rw [hdown i j h.1 h.2] at htrue
    rw [ih, List.drop_eq_getElem_cons h.1, List.drop_eq_getElem_cons h.2, walk_cons, if_neg hne,
      if_pos (Option.some.inj htrue)]
  | case4 i j out h hne hfalse ih =>
    rw [hdown i j h.1 h.2] at hfalse
    rw [ih, List.drop_eq_getElem_cons h.1, List.drop_eq_getElem_cons h.2, walk_cons, if_neg hne,
      if_neg (by rw [Option.some.inj hfalse]; exact Bool.false_ne_true)]
  | case5 i j out h =>
    have hend : walk down' i j (a.drop i) (b.drop j) = [] := by
      rcases Nat.lt_or_ge i a.length with hi | hi
      · rw [List.drop_eq_nil_of_le (Nat.le_of_not_lt fun hj => h ⟨hi, hj⟩), walk_nil_right]
      · rw [List.drop_eq_nil_of_le hi]
        rfl
    rw [hend, List.append_nil]

/-- **The vector is read and written in range**, and the walk is that of the lengths, or any that goes
the same way. -/
theorem lcsFlat_eq (hwrap : ∀ n ≤ min a.length b.length, wrap n = n) {guard : Nat → Bool}
    {down : Nat → Nat → Bool}
    (hdown : ∀ i j, i < a.length → j < b.length → lengthDown guard a b i j = down i j) :
    lcsFlat wrap a b guard = some (walk down 0 0 a b) := by
  obtain ⟨dp, hfill, h⟩ := fillTable_filled hwrap (le_refl _) filled_start
  have hstep : ∀ i j, i < a.length → j < b.length →
      goesDown b guard dp i j = some (down i j) := by
    intro i j hi hj
    rw [goesDown_eq h guard hi hj, hdown i j hi hj]
  rw [lcsFlat, hfill, Option.bind_some, walkLoop_eq hstep]
  rfl

/-! ## Longest matchings -/

/-- Index pairs that go up in both coordinates, of equal elements. -/
def Matching (a b : List α) (m : List (Nat × Nat)) : Prop :=
  (m.Pairwise fun p q => p.1 < q.1 ∧ p.2 < q.2) ∧
    ∀ p ∈ m, ∃ x, a[p.1]? = some x ∧ b[p.2]? = some x

/-- No matching has more pairs. -/
def Longest (a b : List α) (m : List (Nat × Nat)) : Prop :=
  Matching a b m ∧ ∀ m', Matching a b m' → m'.length ≤ m.length

variable {m : List (Nat × Nat)}

omit [DecidableEq α] in
/-- The elements of a matching are a common subsequence. -/
theorem Matching.exists_sublist (h : Matching a b m) :
    ∃ l : List α, l.Sublist a ∧ l.Sublist b ∧ l.length = m.length := by
  have hfrom : ∀ i j, (∀ p ∈ m, i ≤ p.1 ∧ j ≤ p.2) →
      ∃ l : List α, l.Sublist (a.drop i) ∧ l.Sublist (b.drop j) ∧ l.length = m.length := by
    obtain ⟨hordered, hequal⟩ := h
    induction m with
    | nil => exact fun i j _ => ⟨[], List.nil_sublist _, List.nil_sublist _, rfl⟩
    | cons p m ih =>
      intro i j hle
      obtain ⟨hp, hordered⟩ := List.pairwise_cons.mp hordered
      obtain ⟨x, hx, hy⟩ := hequal p List.mem_cons_self
      obtain ⟨l, ha, hb, hl⟩ := ih hordered (fun q hq => hequal q (List.mem_cons_of_mem p hq))
        (p.1 + 1) (p.2 + 1) hp
      obtain ⟨hi, hj⟩ := hle p List.mem_cons_self
      obtain ⟨hpa, rfl⟩ := List.getElem?_eq_some_iff.mp hx
      obtain ⟨hpb, hby⟩ := List.getElem?_eq_some_iff.mp hy
      have ha' : (a[p.1] :: l).Sublist (a.drop p.1) := by
        rw [List.drop_eq_getElem_cons hpa]
        exact ha.cons_cons _
      have hb' : (a[p.1] :: l).Sublist (b.drop p.2) := by
        rw [List.drop_eq_getElem_cons hpb, hby]
        exact hb.cons_cons _
      exact ⟨_, ha'.trans (List.drop_sublist_drop_left a hi),
        hb'.trans (List.drop_sublist_drop_left b hj), congrArg (· + 1) hl⟩
  simpa using hfrom 0 0 fun p _ => ⟨Nat.zero_le _, Nat.zero_le _⟩

omit [DecidableEq α] in
/-- The pairs of an alignment are a matching, of the lists it is a part of. -/
theorem Alignment.matching {gap : List α → List α → Prop} {A B : List α}
    (h : Alignment gap i j a b m) (ha : A.drop i = a) (hb : B.drop j = b) :
    Matching A B m ∧ ∀ p ∈ m, i ≤ p.1 ∧ j ≤ p.2 := by
  induction h with
  | done _ => exact ⟨⟨.nil, List.forall_mem_nil _⟩, List.forall_mem_nil _⟩
  | @pair i j s t a b x m _ rest ih =>
    have hdropA : A.drop (i + s.length + 1) = a := by
      rw [Nat.add_assoc, ← List.drop_drop, ha, ← List.drop_drop, List.drop_left, List.drop_one,
        List.tail_cons]
    have hdropB : B.drop (j + t.length + 1) = b := by
      rw [Nat.add_assoc, ← List.drop_drop, hb, ← List.drop_drop, List.drop_left, List.drop_one,
        List.tail_cons]
    obtain ⟨⟨hordered, hequal⟩, hle⟩ := ih hdropA hdropB
    have hx : A[i + s.length]? = some x := by
      rw [← List.getElem?_drop, ha, List.getElem?_append_right (le_refl _), Nat.sub_self]
      rfl
    have hy : B[j + t.length]? = some x := by
      rw [← List.getElem?_drop, hb, List.getElem?_append_right (le_refl _), Nat.sub_self]
      rfl
    refine ⟨⟨List.pairwise_cons.mpr ⟨fun p hp => ?_, hordered⟩,
      List.forall_mem_cons.mpr ⟨⟨x, hx, hy⟩, hequal⟩⟩, List.forall_mem_cons.mpr ⟨?_, fun p hp => ?_⟩⟩
    · exact hle p hp
    · exact ⟨Nat.le_add_right _ _, Nat.le_add_right _ _⟩
    · obtain ⟨hi, hj⟩ := hle p hp
      exact ⟨by omega, by omega⟩

/-- **A guided walk is a longest matching.** -/
theorem walk_longest {down : Nat → Nat → Bool} (hdown : Guided down a b) :
    Longest a b (walk down 0 0 a b) := by
  have halign := walk_alignment down 0 0 a b
  refine ⟨(halign.matching List.drop_zero List.drop_zero).1, fun m' hm' => ?_⟩
  obtain ⟨l, ha, hb, hl⟩ := hm'.exists_sublist
  rw [walk_length hdown List.drop_zero List.drop_zero, ← hl]
  exact length_le_lcsLength ha hb

/-- The walk of the lengths is guided, where the guard only stops it above the last row. -/
theorem lengthDown_guided {guard : Nat → Bool}
    (hguard : ∀ i < a.length, guard i = false → a.length ≤ i + 1) :
    Guided (lengthDown guard a b) a b := by
  intro i j hi hj
  rw [lengthDown, Bool.and_eq_true, decide_eq_true_eq]
  refine ⟨fun h => h.2, fun h => ?_⟩
  cases hg : guard i with
  | true =>
    rw [hg, Bool.true_and, decide_eq_false_iff_not] at h
    exact (Nat.lt_of_not_le h).le
  | false =>
    -- Below the last row there is nothing to match.
    rw [List.drop_eq_nil_of_le (hguard i hi hg)]
    exact Nat.zero_le _

end Diffz
