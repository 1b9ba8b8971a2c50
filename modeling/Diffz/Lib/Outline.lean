import Mathlib.Data.List.Basic
import Mathlib.Data.List.Chain
import Mathlib.Data.List.Nodup
import Mathlib.Data.List.TakeWhile

/-!
# Outlines

A tree as it is shown in rows: folders, which are open or closed, and leaves. Every row has the
folders it is under, and its depth is their number. A reader sees only the depths; `placed_rows`
says that they give the folders back. What closing a folder does to the rows is `rows_close`, which
needs that no other folder has its key.

The items of an outline are in one list, so a folder has its own items and the items after it.
-/

set_option autoImplicit false

namespace Diffz

variable {δ φ κ : Type}

inductive Outline (δ φ : Type)
  | nil
  | leaf (f : φ) (next : Outline δ φ)
  | folder (d : δ) (items next : Outline δ φ)

namespace Outline

inductive Item (δ φ : Type)
  | leaf (f : φ)
  | folder (d : δ) (isOpen : Bool)
deriving DecidableEq

structure Row (δ φ : Type) where
  above : List δ
  item : Item δ φ
deriving DecidableEq

def Row.depth (r : Row δ φ) : Nat := r.above.length

/-- The rows of an outline that stands under `above`. -/
def rows (isOpen : δ → Bool) (above : List δ) : Outline δ φ → List (Row δ φ)
  | nil => []
  | leaf f next => ⟨above, .leaf f⟩ :: rows isOpen above next
  | folder d items next =>
    ⟨above, .folder d (isOpen d)⟩ ::
      ((if isOpen d then rows isOpen (above ++ [d]) items else []) ++ rows isOpen above next)

def append : Outline δ φ → Outline δ φ → Outline δ φ
  | nil, o => o
  | leaf f next, o => leaf f (next.append o)
  | folder d items next, o => folder d items (next.append o)

def ofLeaves : List φ → Outline δ φ
  | [] => nil
  | f :: fs => leaf f (ofLeaves fs)

/-- The leaves with the folders they are under. -/
def leaves (above : List δ) : Outline δ φ → List (List δ × φ)
  | nil => []
  | leaf f next => (above, f) :: leaves above next
  | folder d items next => leaves (above ++ [d]) items ++ leaves above next

def folders : Outline δ φ → List δ
  | nil => []
  | leaf _ next => folders next
  | folder d items next => d :: (folders items ++ folders next)

variable {isOpen isOpen' : δ → Bool} {above : List δ} {o o' : Outline δ φ}

section

attribute [local simp] append ofLeaves rows leaves folders

@[simp] theorem rows_append : (o.append o').rows isOpen above =
    o.rows isOpen above ++ o'.rows isOpen above := by
  induction o with
  | nil => rfl
  | leaf f next ih => simp [ih]
  | folder d items next _ ih => simp [ih]

@[simp] theorem leaves_append : (o.append o').leaves above = o.leaves above ++ o'.leaves above := by
  induction o with
  | nil => rfl
  | leaf f next ih => simp [ih]
  | folder d items next _ ih => simp [ih]

@[simp] theorem folders_append : (o.append o').folders = o.folders ++ o'.folders := by
  induction o with
  | nil => rfl
  | leaf f next ih => simp [ih]
  | folder d items next _ ih => simp [ih]

@[simp] theorem append_nil : o.append nil = o := by
  induction o with
  | nil => rfl
  | leaf f next ih => simp [ih]
  | folder d items next _ ih => simp [ih]

@[simp] theorem rows_ofLeaves (fs : List φ) :
    (ofLeaves fs : Outline δ φ).rows isOpen above = fs.map fun f => ⟨above, .leaf f⟩ := by
  induction fs with
  | nil => rfl
  | cons f fs ih => simp [ih]

@[simp] theorem leaves_ofLeaves (fs : List φ) :
    (ofLeaves fs : Outline δ φ).leaves above = fs.map fun f => (above, f) := by
  induction fs with
  | nil => rfl
  | cons f fs ih => simp [ih]

@[simp] theorem folders_ofLeaves (fs : List φ) : (ofLeaves fs : Outline δ φ).folders = [] := by
  induction fs with
  | nil => rfl
  | cons f fs ih => simp [ih]

end

/-! ## Depths -/

theorem starts_above {r : Row δ φ} (h : r ∈ o.rows isOpen above) : above <+: r.above := by
  induction o generalizing above with
  | nil => cases h
  | leaf f next ih =>
    rcases List.mem_cons.mp h with rfl | h
    · exact List.prefix_rfl
    · exact ih h
  | folder d items next ihItems ihNext =>
    rcases List.mem_cons.mp h with rfl | h
    · exact List.prefix_rfl
    rcases List.mem_append.mp h with h | h
    · split at h
      · exact (List.prefix_append above [d]).trans (ihItems h)
      · cases h
    · exact ihNext h

theorem head_depth {r : Row δ φ} (h : r ∈ (o.rows isOpen above).head?) :
    r.depth = above.length := by
  cases o with
  | nil => cases h
  | leaf f next =>
    cases h
    rfl
  | folder d items next =>
    cases h
    rfl

/-- **Depths increase by at most one from row to row.** -/
theorem isChain_rows :
    (o.rows isOpen above).IsChain fun r r' : Row δ φ => r'.depth ≤ r.depth + 1 := by
  -- What follows a row at this level begins at this level.
  have next_le : ∀ {above : List δ} {o : Outline δ φ} {r r' : Row δ φ}, above.length ≤ r.depth →
      r' ∈ (o.rows isOpen above).head? → r'.depth ≤ r.depth + 1 := by
    intro above o r r' hr hr'
    rw [head_depth hr']
    omega
  induction o generalizing above with
  | nil => exact .nil
  | leaf f next ih =>
    rw [rows, List.isChain_cons]
    exact ⟨fun r' hr' => next_le (le_refl _) hr', ih⟩
  | folder d items next ihItems ihNext =>
    have hsub : (if isOpen d then items.rows isOpen (above ++ [d]) else []).IsChain
        fun r r' : Row δ φ => r'.depth ≤ r.depth + 1 := by
      split
      · exact ihItems
      · exact .nil
    rw [rows, List.isChain_cons, List.isChain_append]
    refine ⟨?_, hsub, ihNext, ?_⟩
    · intro r' hr'
      rw [List.head?_append] at hr'
      split at hr'
      · cases hhead : (items.rows isOpen (above ++ [d])).head? with
        | none =>
          rw [hhead] at hr'
          exact next_le (le_refl _) hr'
        | some r =>
          rw [hhead] at hr'
          cases hr'
          have hdepth : r'.depth = (above ++ [d]).length := head_depth hhead
          rw [hdepth, List.length_append]
          exact le_refl _
      · exact next_le (le_refl _) hr'
    · intro r hr r' hr'
      refine next_le ?_ hr'
      have hmem := List.mem_of_mem_getLast? hr
      split at hmem
      · exact Nat.le_trans (by simp) (starts_above hmem).length_le
      · cases hmem

/-! ## The folders above a row -/

/-- The last folder of this depth among the rows. -/
def lastAt (rows : List (Row δ φ)) (n : Nat) : Option δ :=
  (rows.reverse.find? fun r => match r.item with
    | .folder _ _ => r.depth = n
    | .leaf _ => false).bind fun r => match r.item with
    | .folder d _ => some d
    | .leaf _ => none

/-- The rows so far give back these folders by their depths. -/
def Gives (before : List (Row δ φ)) (above : List δ) : Prop :=
  ∀ n, n < above.length → lastAt before n = above[n]?

/-- Every row has its folders before it. -/
def Placed (before : List (Row δ φ)) : List (Row δ φ) → Prop
  | [] => True
  | r :: rows => Gives before r.above ∧ Placed (before ++ [r]) rows

theorem placed_append {before rows rows' : List (Row δ φ)} :
    Placed before (rows ++ rows') ↔ Placed before rows ∧ Placed (before ++ rows) rows' := by
  induction rows generalizing before with
  | nil => simp [Placed]
  | cons r rows ih => simp [Placed, ih, and_assoc]

theorem Placed.gives {before rows front back : List (Row δ φ)} {r : Row δ φ}
    (h : Placed before rows) (hrows : rows = front ++ r :: back) :
    Gives (before ++ front) r.above := by
  rw [hrows, placed_append] at h
  exact h.2.1

theorem lastAt_leaf (before : List (Row δ φ)) (above : List δ) (f : φ) (n : Nat) :
    lastAt (before ++ [⟨above, .leaf f⟩]) n = lastAt before n := by
  simp [lastAt]

theorem lastAt_folder (before : List (Row δ φ)) (above : List δ) (d : δ) (b : Bool) (n : Nat) :
    lastAt (before ++ [⟨above, .folder d b⟩]) n =
      if above.length = n then some d else lastAt before n := by
  by_cases h : above.length = n
  · simp [lastAt, Row.depth, h]
  · simp [lastAt, Row.depth, h]

/-- Deeper rows leave a folder where it is. -/
theorem lastAt_append {before rows : List (Row δ φ)} {n : Nat} (h : ∀ r ∈ rows, n < r.depth) :
    lastAt (before ++ rows) n = lastAt before n := by
  induction rows generalizing before with
  | nil => rw [List.append_nil]
  | cons r rows ih =>
    rw [List.append_cons, ih fun x hx => h x (List.mem_cons_of_mem r hx)]
    have hr := h r List.mem_cons_self
    obtain ⟨above, f | ⟨d, b⟩⟩ := r
    · exact lastAt_leaf before above f n
    · rw [lastAt_folder]
      exact if_neg (Nat.ne_of_gt hr)

theorem Gives.append {before rows : List (Row δ φ)} (h : Gives before above)
    (hrows : ∀ r ∈ rows, above.length ≤ r.depth) : Gives (before ++ rows) above := by
  intro n hn
  rw [lastAt_append fun r hr => lt_of_lt_of_le hn (hrows r hr), h n hn]

theorem Gives.folder {before : List (Row δ φ)} (h : Gives before above) (d : δ) (b : Bool) :
    Gives (before ++ [⟨above, .folder d b⟩]) (above ++ [d]) := by
  intro n hn
  rw [lastAt_folder]
  rw [List.length_append, List.length_singleton] at hn
  by_cases heq : above.length = n
  · rw [if_pos heq, ← heq, List.getElem?_concat_length]
  · rw [if_neg heq, h n (by omega), List.getElem?_append_left (by omega)]

/-- **The depths give the folders back.** -/
theorem placed_rows {before : List (Row δ φ)} (h : Gives before above) :
    Placed before (o.rows isOpen above) := by
  have hself : ∀ x : Item δ φ, ∀ r ∈ [(⟨above, x⟩ : Row δ φ)], above.length ≤ r.depth := by
    intro x r hr
    rw [List.mem_singleton.mp hr]
    exact le_refl _
  induction o generalizing above before with
  | nil => trivial
  | leaf f next ih => exact ⟨h, ih (h.append (hself _)) hself⟩
  | folder d items next ihItems ihNext =>
    refine ⟨h, placed_append.mpr ⟨?_, ?_⟩⟩
    · split
      · exact ihItems (h.folder d _) fun x r hr => by rw [List.mem_singleton.mp hr]; exact le_refl _
      · trivial
    · refine ihNext ((h.append (hself _)).append ?_) hself
      intro r hr
      split at hr
      · exact Nat.le_trans (by simp) (starts_above hr).length_le
      · cases hr

/-! ## What is shown -/

theorem leaves_above {l : List δ × φ} (h : l ∈ o.leaves above) : above <+: l.1 := by
  induction o generalizing above with
  | nil => cases h
  | leaf f next ih =>
    rcases List.mem_cons.mp h with rfl | h
    · exact List.prefix_rfl
    · exact ih h
  | folder d items next ihItems ihNext =>
    rcases List.mem_append.mp h with h | h
    · exact (List.prefix_append above [d]).trans (ihItems h)
    · exact ihNext h

def Row.leaf? (r : Row δ φ) : Option (List δ × φ) :=
  match r.item with
  | .leaf f => some (r.above, f)
  | .folder _ _ => none

/-- **The leaves that are shown are those under open folders only.** -/
theorem filterMap_leaf_rows (h : ∀ d ∈ above, isOpen d) :
    (o.rows isOpen above).filterMap Row.leaf? =
      (o.leaves above).filter fun l => l.1.all isOpen := by
  induction o generalizing above with
  | nil => rfl
  | leaf f next ih =>
    have hall : above.all isOpen = true := List.all_eq_true.mpr h
    simp [rows, leaves, Row.leaf?, hall, ih h]
  | folder d items next ihItems ihNext =>
    rw [rows, leaves, List.filter_append, ← ihNext h, List.filterMap_cons_none rfl,
      List.filterMap_append]
    by_cases hd : isOpen d
    · have hopen : ∀ x ∈ above ++ [d], isOpen x = true := by
        simpa [or_imp, forall_and] using ⟨h, hd⟩
      rw [← ihItems hopen, if_pos hd]
    · have hnone : (items.leaves (above ++ [d])).filter (fun l => l.1.all isOpen) = [] := by
        rw [List.filter_eq_nil_iff]
        intro l hl hall
        have hmem : d ∈ l.1 := (leaves_above hl).subset (by simp)
        exact hd (List.all_eq_true.mp hall d hmem)
      rw [hnone, if_neg hd]
      rfl

/-- A leaf that is not shown is under a closed folder whose row is. -/
theorem closed_row {l : List δ × φ} (hl : l ∈ o.leaves above) {d : δ}
    (hd : d ∈ l.1.drop above.length) (hclosed : isOpen d = false) :
    ∃ r ∈ o.rows isOpen above, ∃ d ∈ l.1.drop above.length, r.item = .folder d false := by
  induction o generalizing above with
  | nil => cases hl
  | leaf f next ih =>
    rcases List.mem_cons.mp hl with rfl | hl
    · simp at hd
    · obtain ⟨r, hr, hitem⟩ := ih hl hd
      exact ⟨r, List.mem_cons_of_mem _ hr, hitem⟩
  | folder x items next ihItems ihNext =>
    rcases List.mem_append.mp hl with hl | hl
    · obtain ⟨t, ht⟩ := leaves_above hl
      have hdrop : l.1.drop above.length = x :: l.1.drop (above ++ [x]).length := by
        rw [← ht]
        simp
      by_cases hx : isOpen x
      · rw [hdrop] at hd
        rcases List.mem_cons.mp hd with rfl | hd
        · rw [hx] at hclosed
          cases hclosed
        obtain ⟨r, hr, y, hy, hitem⟩ := ihItems hl hd
        refine ⟨r, ?_, y, ?_, hitem⟩
        · rw [rows, if_pos hx]
          exact List.mem_cons_of_mem _ (List.mem_append_left _ hr)
        · rw [hdrop]
          exact List.mem_cons_of_mem x hy
      · refine ⟨⟨above, .folder x (isOpen x)⟩, List.mem_cons_self, x, ?_, ?_⟩
        · rw [hdrop]
          exact List.mem_cons_self
        · rw [Bool.eq_false_iff.mpr hx]
    · obtain ⟨r, hr, hitem⟩ := ihNext hl hd
      exact ⟨r, List.mem_cons_of_mem _ (List.mem_append_right _ hr), hitem⟩

/-- The flag of a folder is whether it is open. -/
theorem folder_row {r : Row δ φ} (h : r ∈ o.rows isOpen above) {d : δ} {b : Bool}
    (hitem : r.item = .folder d b) : d ∈ o.folders ∧ b = isOpen d := by
  induction o generalizing above with
  | nil => cases h
  | leaf f next ih =>
    rcases List.mem_cons.mp h with rfl | h
    · cases hitem
    · exact ih h
  | folder x items next ihItems ihNext =>
    rcases List.mem_cons.mp h with rfl | h
    · cases hitem
      exact ⟨List.mem_cons_self, rfl⟩
    rcases List.mem_append.mp h with h | h
    · split at h
      · obtain ⟨hd, hb⟩ := ihItems h
        exact ⟨List.mem_cons_of_mem x (List.mem_append_left _ hd), hb⟩
      · cases h
    · obtain ⟨hd, hb⟩ := ihNext h
      exact ⟨List.mem_cons_of_mem x (List.mem_append_right _ hd), hb⟩

/-! ## Closing a folder -/

theorem rows_congr (h : ∀ d ∈ o.folders, isOpen d = isOpen' d) :
    o.rows isOpen above = o.rows isOpen' above := by
  induction o generalizing above with
  | nil => rfl
  | leaf f next ih => rw [rows, rows, ih h]
  | folder d items next ihItems ihNext =>
    rw [rows, rows, h d List.mem_cons_self,
      ihItems fun x hx => h x (List.mem_cons_of_mem d (List.mem_append_left _ hx)),
      ihNext fun x hx => h x (List.mem_cons_of_mem d (List.mem_append_right _ hx))]

theorem dropWhile_append_stop {α : Type} {p : α → Bool} {l m : List α}
    (h : ∀ a ∈ m.head?, p a = false) : (l ++ m).dropWhile p = l.dropWhile p ++ m := by
  induction l with
  | nil =>
    cases m with
    | nil => rfl
    | cons a m => exact List.dropWhile_cons_of_neg (by simp [h a rfl])
  | cons a l ih =>
    by_cases ha : p a
    · rw [List.cons_append, List.dropWhile_cons_of_pos ha, List.dropWhile_cons_of_pos ha, ih]
    · rw [List.cons_append, List.dropWhile_cons_of_neg ha, List.dropWhile_cons_of_neg ha]
      rfl

section Close

variable [DecidableEq κ] {key : δ → κ} {before rest : List (Row δ φ)} {a : List δ} {d : δ}

/-- The folders that are left open. -/
def without (isOpen : δ → Bool) (key : δ → κ) (k : κ) (d : δ) : Bool := isOpen d && key d ≠ k

theorem without_eq {k : κ} {x : δ} (h : key x ≠ k) : without isOpen key k x = isOpen x := by
  simp [without, h]

theorem rows_without (h : ∀ x ∈ o.folders, key x ≠ key d) :
    o.rows (without isOpen key (key d)) above = o.rows isOpen above :=
  rows_congr fun x hx => without_eq (h x hx)

/-- **Closing a folder takes away the rows below it**, which are the deeper ones that follow. -/
theorem rows_close (hkeys : (o.folders.map key).Nodup)
    (h : o.rows isOpen above = before ++ ⟨a, .folder d true⟩ :: rest) :
    o.rows (without isOpen key (key d)) above =
      before ++ ⟨a, .folder d false⟩ :: rest.dropWhile fun r => a.length < r.depth := by
  induction o generalizing above before rest with
  | nil => simp [rows] at h
  | leaf f next ih =>
    rw [rows] at h
    cases before with
    | nil => cases h
    | cons r before =>
      rw [List.cons_append] at h
      obtain ⟨hr, hnext⟩ := List.cons.inj h
      rw [rows, ih hkeys hnext, hr]
      rfl
  | folder x items next ihItems ihNext =>
    rw [folders, List.map_cons, List.map_append, List.nodup_cons, List.nodup_append] at hkeys
    obtain ⟨hx, hitems, hnext, hapart⟩ := hkeys
    have hstop : ∀ r ∈ (next.rows isOpen above).head?, r.depth = above.length :=
      fun r hr => head_depth hr
    rw [rows] at h
    cases before with
    | nil =>
      obtain ⟨hrow, hrest⟩ := List.cons.inj h
      obtain ⟨rfl, rfl, hopen⟩ : above = a ∧ x = d ∧ isOpen x = true := by simpa using hrow
      rw [if_pos hopen] at hrest
      have hnone : ∀ y ∈ next.folders, key y ≠ key x := fun y hy heq =>
        hx (List.mem_append_right _ (heq ▸ List.mem_map_of_mem hy))
      have hdeep : (items.rows isOpen (above ++ [x])).dropWhile
          (fun r => decide (above.length < r.depth)) = [] := by
        rw [List.dropWhile_eq_nil_iff]
        intro r hr
        have hle := (starts_above hr).length_le
        rw [List.length_append, List.length_singleton] at hle
        exact decide_eq_true hle
      have hclosed : without isOpen key (key x) x = false := by simp [without]
      rw [rows, hclosed, rows_without hnone, ← hrest, dropWhile_append_stop, hdeep]
      · rfl
      · intro r hr
        rw [hstop r hr]
        exact decide_eq_false (lt_irrefl _)
    | cons r before =>
      rw [List.cons_append] at h
      obtain ⟨hr, hrest⟩ := List.cons.inj h
      have after : ∀ front, before = (if isOpen x then items.rows isOpen (above ++ [x]) else []) ++
          front → next.rows isOpen above = front ++ ⟨a, .folder d true⟩ :: rest →
          (folder x items next).rows (without isOpen key (key d)) above =
            r :: before ++ ⟨a, .folder d false⟩ :: rest.dropWhile fun r => a.length < r.depth := by
        intro front hbefore hT
        have hd : d ∈ next.folders :=
          (folder_row (r := ⟨a, .folder d true⟩) (by rw [hT]; simp) rfl).1
        have hne : ∀ y, y = x ∨ y ∈ items.folders → key y ≠ key d := by
          rintro y (rfl | hy) heq
          · exact hx (List.mem_append_right _ (heq ▸ List.mem_map_of_mem hd))
          · exact hapart _ (List.mem_map_of_mem hy) _ (List.mem_map_of_mem hd) heq
        rw [rows, without_eq (hne x (.inl rfl)), rows_without fun y hy => hne y (.inr hy),
          ihNext hnext hT, hr, hbefore]
        simp
      rcases List.append_eq_append_iff.mp hrest with ⟨front, hbefore, hT⟩ | ⟨back, hS, hback⟩
      · exact after front hbefore hT
      cases back with
      | nil => exact after [] (by rw [hS, List.append_nil, List.append_nil]) hback.symm
      | cons r' back =>
        -- The folder is among the items of this one, which is therefore open.
        rw [List.cons_append] at hback
        obtain ⟨hr', htail⟩ := List.cons.inj hback
        subst hr'
        have hopen : isOpen x = true := by
          by_contra hno
          rw [if_neg hno] at hS
          simp at hS
        rw [if_pos hopen] at hS
        have hd : d ∈ items.folders :=
          (folder_row (r := ⟨a, .folder d true⟩) (by rw [hS]; simp) rfl).1
        have hnex : key x ≠ key d := fun heq =>
          hx (List.mem_append_left _ (heq ▸ List.mem_map_of_mem hd))
        have hnone : ∀ y ∈ next.folders, key y ≠ key d := fun y hy heq =>
          hapart _ (List.mem_map_of_mem hd) _ (List.mem_map_of_mem hy) heq.symm
        have hstart : above.length < a.length := by
          have hle := (starts_above (r := ⟨a, .folder d true⟩) (by rw [hS]; simp)).length_le
          rw [List.length_append, List.length_singleton] at hle
          exact hle
        rw [rows, without_eq hnex, if_pos hopen, rows_without hnone, ihItems hitems hS, htail,
          dropWhile_append_stop, hr]
        · simp
        · intro r hr
          rw [hstop r hr]
          exact decide_eq_false (by omega)

end Close

end Outline
end Diffz
