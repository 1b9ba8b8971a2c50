import Mathlib.Data.List.TakeWhile
import Diffz.Core.Decoration
import Diffz.Lib.Sha256
import Diffz.Proof.Patch.Numbers

/-!
# The two views of a diff

`Split` says how the rows of a hunk stand beside each other: blocks of removed and added lines, and
single lines. The views show the same cells in the order of the patch. A cell finds its marks by its
number, which no other cell of its side has, so it does not matter in which order they are taken.
-/

set_option autoImplicit false

namespace Diffz
namespace Proof
namespace Presentation

open Diffz.Presentation
open Diffz.Proof.Patch (HunkInv HunksInv)

/-! ## Side by side -/

theorem isRemoved_iff {r : PatchRow} : isRemoved r ↔ r.kind = .removed := decide_eq_true_iff

theorem isAdded_iff {r : PatchRow} : isAdded r ↔ r.kind = .added := decide_eq_true_iff

/-- The row of a line that is not removed. -/
def singleLine (r : PatchRow) : DisplayRow :=
  .line (Cell.ofRow r .left) (Cell.ofRow r .right) false none

/-- How rows are laid out side by side. -/
inductive Split : List PatchRow → List DisplayRow → Prop
  | nil : Split [] []
  | block {removed added rows : List PatchRow} {lines : List DisplayRow}
      (hremoved : ∀ r ∈ removed, r.kind = .removed) (hadded : ∀ r ∈ added, r.kind = .added)
      (rest : Split rows lines) :
      Split (removed ++ (added ++ rows)) (pairLines removed added ++ lines)
  | single {r : PatchRow} {rows : List PatchRow} {lines : List DisplayRow}
      (hkind : r.kind ≠ .removed) (rest : Split rows lines) :
      Split (r :: rows) (singleLine r :: lines)

theorem splitFrom_split {fuel : Nat} {rows : List PatchRow} (hfuel : rows.length ≤ fuel) :
    Split rows (splitFrom fuel rows) := by
  induction fuel generalizing rows with
  | zero =>
    rw [List.length_eq_zero_iff.mp (Nat.le_zero.mp hfuel)]
    exact .nil
  | succ fuel ih =>
    cases rows with
    | nil => exact .nil
    | cons r rest =>
      have hrest : rest.length ≤ fuel := Nat.le_of_succ_le_succ hfuel
      rw [splitFrom]
      split
      · rename_i hr
        have htail : ((rest.dropWhile isRemoved).dropWhile isAdded).length ≤ fuel :=
          ((List.dropWhile_sublist _).trans (List.dropWhile_sublist _)).length_le.trans hrest
        have hsplit : r :: rest = (r :: rest.takeWhile isRemoved) ++
            ((rest.dropWhile isRemoved).takeWhile isAdded ++
              (rest.dropWhile isRemoved).dropWhile isAdded) := by
          rw [List.takeWhile_append_dropWhile, List.cons_append, List.takeWhile_append_dropWhile]
        have hremoved : ∀ x ∈ r :: rest.takeWhile isRemoved, x.kind = .removed := by
          intro x hx
          rcases List.mem_cons.mp hx with rfl | hx
          · exact isRemoved_iff.mp hr
          · exact isRemoved_iff.mp (List.mem_takeWhile_imp hx)
        have hadded : ∀ x ∈ (rest.dropWhile isRemoved).takeWhile isAdded, x.kind = .added :=
          fun x hx => isAdded_iff.mp (List.mem_takeWhile_imp hx)
        rw [hsplit]
        exact .block hremoved hadded (ih htail)
      · rename_i hr
        exact .single (fun hkind => hr (isRemoved_iff.mpr hkind)) (ih hrest)

/-! ## Columns -/

/-- The rows of a hunk have numbers on the sides they are on. -/
def Shaped (rows : List PatchRow) : Prop :=
  ∀ r ∈ rows, ∀ side, (r.number side).isSome ↔ r.kind.on side

section Columns

variable {β : Type} {rows removed added : List PatchRow} {lines : List DisplayRow} {r : PatchRow}

theorem ofRow_isSome (hshape : Shaped rows) (hr : r ∈ rows) (side : Side) :
    (Cell.ofRow r side).isSome ↔ r.kind.on side := by
  rw [Cell.ofRow, Option.isSome_map]
  exact hshape r hr side

theorem ofRow_eq_none (hshape : Shaped rows) (hr : r ∈ rows) {side : Side}
    (hoff : ¬ r.kind.on side) : Cell.ofRow r side = none := by
  rw [← Option.not_isSome_iff_eq_none]
  exact fun h => hoff ((ofRow_isSome hshape hr side).mp h)

theorem filterMap_range_getElem? {α : Type} (f : α → Option β) (l : List α) (n : Nat)
    (h : l.length ≤ n) : (List.range n).filterMap (fun p => l[p]?.bind f) = l.filterMap f := by
  induction l generalizing n with
  | nil => simp
  | cons a l ih =>
    cases n with
    | zero => cases h
    | succ n =>
      rw [List.range_succ_eq_map, List.filterMap_cons, List.filterMap_map]
      simp only [List.getElem?_cons_zero, Option.bind_some, Function.comp_def,
        List.getElem?_cons_succ, ih n (Nat.le_of_succ_le_succ h), List.filterMap_cons]

/-- What is read off the rows of one side, for a reading `get` of a row that comes from a reading
`key` of its cell. -/
theorem Split.column {side : Side} {get : DisplayRow → Option β} {key : Cell → Option β}
    (hget : ∀ left right, get (.line left right false none) =
      ((DisplayRow.line left right false none).cell side).bind key)
    (h : Split rows lines) (hshape : Shaped rows) :
    lines.filterMap get = rows.filterMap fun r => (Cell.ofRow r side).bind key := by
  induction h with
  | nil => rfl
  | @block removed added rows lines hremoved hadded rest ih =>
    have hrest := ih fun r hr => hshape r (by simp [hr])
    rw [List.filterMap_append, List.filterMap_append, List.filterMap_append, hrest,
      ← List.append_assoc]
    congr 1
    rw [pairLines, List.filterMap_map]
    cases side with
    | left =>
      have hnone : added.filterMap (fun r => (Cell.ofRow r .left).bind key) = [] := by
        refine List.filterMap_eq_nil_iff.mpr fun r hr => ?_
        rw [ofRow_eq_none hshape (by simp [hr]) (by rw [hadded r hr]; exact Side.noConfusion)]
        rfl
      rw [hnone, List.append_nil, ← filterMap_range_getElem? _ removed _ (le_max_left _ _)]
      refine List.filterMap_congr fun p _ => ?_
      rw [Function.comp_apply, hget, DisplayRow.cell, Option.bind_assoc]
    | right =>
      have hnone : removed.filterMap (fun r => (Cell.ofRow r .right).bind key) = [] := by
        refine List.filterMap_eq_nil_iff.mpr fun r hr => ?_
        rw [ofRow_eq_none hshape (by simp [hr]) (by rw [hremoved r hr]; exact Side.noConfusion)]
        rfl
      rw [hnone, List.nil_append, ← filterMap_range_getElem? _ added _ (le_max_right _ _)]
      refine List.filterMap_congr fun p _ => ?_
      rw [Function.comp_apply, hget, DisplayRow.cell, Option.bind_assoc]
  | @single r rows lines hkind rest ih =>
    have hrest := ih fun r hr => hshape r (List.mem_cons_of_mem _ hr)
    have hcell : (singleLine r).cell side = Cell.ofRow r side := by cases side <;> rfl
    rw [List.filterMap_cons, singleLine, hget, ← singleLine, hcell, hrest, List.filterMap_cons]

end Columns

/-! ## Marks -/

/-- A cell with the marks that stand under its number. -/
def markCell (words : Words) (side : Side) (c : Cell) : MarkedCell :=
  { c with intra := (words.find (side, c.number)).getD [] }

def markRow (words : Words) : DisplayRow → MarkedRow
  | .hunk label sourceLine side => .hunk label sourceLine side
  | .line left right unified oldNumber =>
    .line (left.map (markCell words .left)) (right.map (markCell words .right)) unified oldNumber
  | .notice text => .notice text

/-- What a cell takes. -/
def cellKeys (side : Side) (c : Option Cell) : List (Side × Nat) :=
  (c.map fun c => (side, c.number)).toList

/-- What the cells take, in this order. -/
def keys (rows : List DisplayRow) : List (Side × Nat) :=
  rows.flatMap fun row => cellKeys .left (row.cell .left) ++ cellKeys .right (row.cell .right)

section Marks

variable {words words' : Words} {rows : List DisplayRow} {c : Option Cell} {side : Side}
  {k : Side × Nat}

theorem side_of_mem_cellKeys (hk : k ∈ cellKeys side c) : k.1 = side := by
  cases c with
  | none => cases hk
  | some c => rw [List.mem_singleton.mp hk]

theorem takeWords_eq (h : ∀ k ∈ cellKeys side c, words'.find k = words.find k) :
    (takeWords words' side c).1 = c.map (markCell words side) := by
  cases c with
  | none => rfl
  | some c => simp [takeWords, markCell, h (side, c.number) (by simp [cellKeys])]

theorem find_takeWords (h : k ∉ cellKeys side c) :
    (takeWords words' side c).2.find k = words'.find k := by
  cases c with
  | none => rfl
  | some c =>
    rw [takeWords, Table.find_erase, if_neg]
    rintro rfl
    exact h (by simp [cellKeys])

/-- **The order in which marks are taken does not matter**, where no two cells take the same. -/
theorem decorate_eq (hnodup : (keys rows).Nodup)
    (h : ∀ k ∈ keys rows, words'.find k = words.find k) :
    decorate words' rows = rows.map (markRow words) := by
  induction rows generalizing words' with
  | nil => rfl
  | cons row rows ih =>
    cases row with
    | hunk label sourceLine side => exact congrArg _ (ih hnodup h)
    | notice text => exact congrArg _ (ih hnodup h)
    | line left right unified oldNumber =>
      have hkeys : keys (.line left right unified oldNumber :: rows) =
          cellKeys .left left ++ (cellKeys .right right ++ keys rows) := by
        simp [keys, DisplayRow.cell]
      rw [hkeys] at hnodup h
      obtain ⟨-, hnodup, hleft⟩ := List.nodup_append.mp hnodup
      obtain ⟨-, hnodup, hright⟩ := List.nodup_append.mp hnodup
      -- What is taken on the left is not looked up later on, and so on the right.
      have hafter : ∀ k ∈ cellKeys .right right ++ keys rows,
          (takeWords words' .left left).2.find k = words.find k := by
        intro k hk
        rw [find_takeWords fun hmem => hleft k hmem k hk rfl]
        exact h k (List.mem_append_right _ hk)
      have hrest : decorate (takeWords (takeWords words' .left left).2 .right right).2 rows =
          rows.map (markRow words) := by
        refine ih hnodup fun k hk => ?_
        rw [find_takeWords fun hmem => hright k hmem k hk rfl]
        exact hafter k (List.mem_append_right _ hk)
      rw [decorate, hrest, takeWords_eq fun k hk => h k (List.mem_append_left _ hk),
        takeWords_eq fun k hk => hafter k (List.mem_append_left _ hk)]
      rfl

theorem nodup_of_sides {l : List (Side × Nat)}
    (h : ∀ side, (l.filterMap fun k => if k.1 = side then some k.2 else none).Nodup) :
    l.Nodup := by
  induction l with
  | nil => exact .nil
  | cons k l ih =>
    refine List.nodup_cons.mpr ⟨fun hk => ?_, ih fun side => ?_⟩
    · have hside := h k.1
      rw [List.filterMap_cons_some (b := k.2) (by simp), List.nodup_cons] at hside
      exact hside.1 (List.mem_filterMap.mpr ⟨k, hk, by simp⟩)
    · exact (h side).sublist ((List.sublist_cons_self k l).filterMap _)

/-- The keys on one side are the numbers of its cells. -/
theorem keys_side (side : Side) (rows : List DisplayRow) :
    ((keys rows).filterMap fun k => if k.1 = side then some k.2 else none) =
      rows.filterMap fun row => (row.cell side).map Cell.number := by
  induction rows with
  | nil => rfl
  | cons row rows ih =>
    rw [keys, List.flatMap_cons, ← keys, List.filterMap_append, ih, List.filterMap_append,
      List.filterMap_cons]
    cases side <;> cases row.cell .left <;> cases row.cell .right <;> simp [cellKeys]

end Marks

/-! ## Numbers -/

/-- The representation invariant of a file: of its hunks, and that the numbers of a side increase
along the file. -/
structure FileInv (f : FileChange) : Prop where
  hunks : ∀ h ∈ f.hunks, HunkInv h
  increasing : ∀ side, (f.allRows.filterMap (·.number side)).Pairwise (· < ·)

section Numbers

variable {h : Hunk} {f : FileChange} {side : Side}

theorem FileInv.of_hunksInv (hi : HunksInv f.hunks) : FileInv f :=
  ⟨hi.inv, hi.increasing⟩

theorem ofRow_number (r : PatchRow) (side : Side) :
    (Cell.ofRow r side).map Cell.number = r.number side := by
  simp [Cell.ofRow, Function.comp_def]

theorem filterMap_sublist {α β : Type} {f g : α → Option β} (l : List α)
    (h : ∀ a, f a = none ∨ f a = g a) : (l.filterMap f).Sublist (l.filterMap g) := by
  induction l with
  | nil => exact .slnil
  | cons a l ih =>
    rcases h a with ha | ha
    · rw [List.filterMap_cons_none ha]
      exact ih.trans ((List.sublist_cons_self a l).filterMap g)
    · rw [List.filterMap_cons, List.filterMap_cons, ha]
      cases g a with
      | none => exact ih
      | some b => exact ih.cons_cons b

theorem hunkLines_numbers (hi : HunkInv h) (split : Bool) (side : Side) :
    ((hunkLines split h).filterMap fun row => (row.cell side).map Cell.number).Sublist
      (h.rows.filterMap (·.number side)) := by
  cases split with
  | true =>
    have hget : ∀ left right, ((DisplayRow.line left right false none).cell side).map Cell.number =
        ((DisplayRow.line left right false none).cell side).bind fun c => some c.number :=
      fun _ _ => Option.map_eq_bind
    have hcolumn : (hunkLines true h).filterMap (fun row => (row.cell side).map Cell.number) = _ :=
      (splitFrom_split (le_refl h.rows.length)).column hget hi.shape
    have hnumbers : (h.rows.filterMap fun r => (Cell.ofRow r side).bind fun c => some c.number) =
        h.rows.filterMap (·.number side) := by
      refine List.filterMap_congr fun r _ => ?_
      rw [← ofRow_number r side, Option.map_eq_bind]
      rfl
    rw [hnumbers] at hcolumn
    exact hcolumn ▸ List.Sublist.refl _
  | false =>
    have hrows : hunkLines false h = h.rows.map unifiedLine := rfl
    rw [hrows, List.filterMap_map]
    refine filterMap_sublist h.rows fun r => ?_
    rw [Function.comp_apply, unifiedLine]
    cases side with
    | left =>
      rw [DisplayRow.cell]
      split
      · exact .inr (ofRow_number r .left)
      · exact .inl rfl
    | right =>
      rw [DisplayRow.cell]
      split
      · exact .inr (ofRow_number r .right)
      · exact .inl rfl

theorem rows_numbers (hi : FileInv f) (split : Bool) (side : Side) :
    ((Diffz.Presentation.rows f split).filterMap fun row => (row.cell side).map Cell.number).Sublist
      (f.allRows.filterMap (·.number side)) := by
  have hnotices : (notices f).filterMap (fun row => (row.cell side).map Cell.number) = [] := by
    refine List.filterMap_eq_nil_iff.mpr fun row hrow => ?_
    simp only [notices, List.mem_append] at hrow
    rcases hrow with (h | h) | h
    all_goals
      split at h
      · rw [List.mem_singleton.mp h]
        cases side <;> rfl
      · cases h
  have hhunks := hi.hunks
  rw [Diffz.Presentation.rows, List.filterMap_append, hnotices, List.nil_append,
    FileChange.allRows]
  generalize f.hunks = hs at hhunks ⊢
  induction hs with
  | nil => exact .slnil
  | cons h hs ih =>
    rw [List.flatMap_cons, List.flatMap_cons, List.filterMap_append, List.filterMap_append]
    refine .append ?_ (ih fun g hg => hhunks g (List.mem_cons_of_mem h hg))
    have hheader : ((headerRow h).cell side).map Cell.number = none := by cases side <;> rfl
    simp only [List.filterMap_cons, hheader]
    exact hunkLines_numbers (hhunks h (List.mem_cons_self ..)) split side

/-- All cells take what stands under their numbers. -/
theorem markedRows_eq (diff : String → String → Inline.Ranges × Inline.Ranges) (hi : FileInv f)
    (split : Bool) : markedRows diff f split =
      (Diffz.Presentation.rows f split).map (markRow (words diff f)) := by
  refine decorate_eq (nodup_of_sides fun side => ?_) fun _ _ => rfl
  rw [keys_side]
  exact ((hi.increasing side).imp Nat.ne_of_lt).sublist (rows_numbers hi split side)

end Numbers

/-! ## The two views -/

section Views

variable {words : Words} {rows : List PatchRow} {lines : List DisplayRow} {f : FileChange}

/-- The cell of a row on a side, with its marks. -/
def markedCell (words : Words) (side : Side) (r : PatchRow) : Option MarkedCell :=
  (Cell.ofRow r side).map (markCell words side)

/-- The two cells of a context line, and the old number in its gutter. -/
def contextLine : MarkedRow → Option (Option MarkedCell × Option MarkedCell × Option Nat)
  | .line left right _ oldNumber =>
    if right.map (·.kind) = some .context then some (left, right, oldNumber) else none
  | _ => none

/-- What the lines of a hunk show, unified or split: the removed rows on the left, with the context
rows if split; the other rows on the right; and the context rows one by one. Each row has its own
cell, and the order is that of the patch. -/
structure Shows (words : Words) (split : Bool) (rows : List PatchRow) (lines : List MarkedRow) :
    Prop where
  cells : ∀ r ∈ rows, ∀ side, (markedCell words side r).isSome ↔ r.kind.on side
  left : lines.filterMap (·.cell .left) = (rows.filter fun r => decide (r.kind = .removed) ||
    (split && decide (r.kind = .context))).filterMap (markedCell words .left)
  right : lines.filterMap (·.cell .right) =
    (rows.filter fun r => r.kind ≠ .removed).filterMap (markedCell words .right)
  context : lines.filterMap contextLine = (rows.filter fun r => r.kind = .context).map fun r =>
    (if split then markedCell words .left r else none, markedCell words .right r,
      if split then none else r.oldLine)

theorem filterMap_filter_of_none {α β : Type} {p : α → Bool} {f : α → Option β} {l : List α}
    (h : ∀ a ∈ l, p a = false → f a = none) : (l.filter p).filterMap f = l.filterMap f := by
  rw [List.filterMap_filter]
  refine List.filterMap_congr fun a ha => ?_
  split
  · rfl
  · rename_i hp
    exact (h a ha (by simpa using hp)).symm

theorem markedCell_isSome (hshape : Shaped rows) {r : PatchRow} (hr : r ∈ rows) (side : Side) :
    (markedCell words side r).isSome ↔ r.kind.on side := by
  rw [markedCell, Option.isSome_map]
  exact ofRow_isSome hshape hr side

theorem markedCell_eq_none (hshape : Shaped rows) {r : PatchRow} (hr : r ∈ rows) {side : Side}
    (hoff : ¬ r.kind.on side) : markedCell words side r = none := by
  rw [markedCell, ofRow_eq_none hshape hr hoff]
  rfl

/-- A line is one of context where the row of its right cell is. -/
theorem contextLine_right (hshape : Shaped rows) {r : PatchRow} (hr : r ∈ rows)
    (left : Option MarkedCell) (unified : Bool) (oldNumber : Option Nat) :
    contextLine (.line left (markedCell words .right r) unified oldNumber) =
      if r.kind = .context then some (left, markedCell words .right r, oldNumber) else none := by
  have hkind : (markedCell words .right r).map (·.kind) = (r.number .right).map fun _ => r.kind := by
    simp [markedCell, Cell.ofRow, markCell, Function.comp_def]
  have hon := hshape r hr .right
  rw [contextLine, hkind]
  cases hnumber : r.number .right with
  | none =>
    rw [hnumber] at hon
    have hne : r.kind ≠ .context := fun hk => by simp [hk, RowKind.on] at hon
    rw [if_neg hne]
    rfl
  | some n => simp

theorem Split.context (hsplit : Split rows lines) (hshape : Shaped rows) :
    (lines.map (markRow words)).filterMap contextLine =
      (rows.filter fun r => r.kind = .context).map fun r =>
        (markedCell words .left r, markedCell words .right r, none) := by
  induction hsplit with
  | nil => rfl
  | @block removed added rows lines hremoved hadded rest ih =>
    have hrest := ih fun r hr => hshape r (by simp [hr])
    have hnone : ((pairLines removed added).map (markRow words)).filterMap contextLine = [] := by
      rw [pairLines, List.map_map, List.filterMap_map]
      refine List.filterMap_eq_nil_iff.mpr fun p _ => ?_
      rw [Function.comp_apply, Function.comp_apply, markRow]
      cases hp : added[p]? with
      | none => rfl
      | some r =>
        have hr := List.mem_of_getElem? hp
        have hkind : r.kind ≠ .context := by simp [hadded r hr]
        rw [Option.bind_some, ← markedCell, contextLine_right hshape (by simp [hr]), if_neg hkind]
    have hremoved' : removed.filter (fun r => r.kind = .context) = [] :=
      List.filter_eq_nil_iff.mpr fun r hr => by simp [hremoved r hr]
    have hadded' : added.filter (fun r => r.kind = .context) = [] :=
      List.filter_eq_nil_iff.mpr fun r hr => by simp [hadded r hr]
    rw [List.map_append, List.filterMap_append, hnone, List.nil_append, hrest, List.filter_append,
      List.filter_append, hremoved', hadded', List.nil_append, List.nil_append]
  | @single r rows lines hkind rest ih =>
    have hrest := ih fun r hr => hshape r (List.mem_cons_of_mem _ hr)
    have hline : contextLine (markRow words (singleLine r)) =
        if r.kind = .context then some (markedCell words .left r, markedCell words .right r, none)
        else none :=
      contextLine_right hshape (List.mem_cons_self ..) ..
    rw [List.map_cons, List.filterMap_cons, hline, hrest]
    by_cases hcontext : r.kind = .context
    · simp [hcontext]
    · simp [hcontext]

theorem Split.shows (hsplit : Split rows lines) (hshape : Shaped rows) :
    Shows words true rows (lines.map (markRow words)) := by
  have hcolumn : ∀ side, (lines.map (markRow words)).filterMap (·.cell side) =
      rows.filterMap (markedCell words side) := by
    intro side
    have hget : ∀ left right, (markRow words (.line left right false none)).cell side =
        ((DisplayRow.line left right false none).cell side).bind
          fun c => some (markCell words side c) := by
      intro left right
      cases side <;> exact Option.map_eq_bind
    rw [List.filterMap_map]
    exact (hsplit.column hget hshape).trans
      (List.filterMap_congr fun r _ => Option.map_eq_bind.symm)
  refine ⟨fun r hr side => markedCell_isSome hshape hr side, ?_, ?_, ?_⟩
  · rw [hcolumn, filterMap_filter_of_none]
    intro r hr hkind
    refine markedCell_eq_none hshape hr ?_
    cases hk : r.kind <;> simp_all [RowKind.on]
  · rw [hcolumn, filterMap_filter_of_none]
    intro r hr hkind
    refine markedCell_eq_none hshape hr ?_
    cases hk : r.kind <;> simp_all [RowKind.on]
  · rw [hsplit.context hshape]
    rfl

theorem unified_shows (hshape : Shaped rows) :
    Shows words false rows ((rows.map unifiedLine).map (markRow words)) := by
  have hlines : (rows.map unifiedLine).map (markRow words) = rows.map fun r =>
      .line (if r.kind = .removed then markedCell words .left r else none)
        (if r.kind ≠ .removed then markedCell words .right r else none) true r.oldLine := by
    rw [List.map_map]
    refine List.map_congr_left fun r _ => ?_
    simp only [Function.comp_apply, unifiedLine, markRow, markedCell]
    split <;> simp_all
  rw [hlines]
  refine ⟨fun r hr side => markedCell_isSome hshape hr side, ?_, ?_, ?_⟩
  · rw [List.filterMap_map, List.filterMap_filter]
    refine List.filterMap_congr fun r _ => ?_
    simp [MarkedRow.cell]
  · rw [List.filterMap_map, List.filterMap_filter]
    refine List.filterMap_congr fun r _ => ?_
    simp [MarkedRow.cell]
  · rw [List.filterMap_map, ← List.filterMap_eq_map, List.filterMap_filter]
    refine List.filterMap_congr fun r hr => ?_
    have hright : (if r.kind ≠ .removed then markedCell words .right r else none) =
        markedCell words .right r := by
      split
      · rfl
      · rename_i hkind
        rw [markedCell_eq_none hshape hr]
        simp [not_not.mp hkind, RowKind.on]
    rw [Function.comp_apply, hright, contextLine_right hshape hr]
    split <;> simp_all

end Views

/-- **The split and the unified view show the same diff.** Below the same notices and hunk headers,
both show the cells of the same rows in the order of the patch, with the marks that stand under their
numbers. -/
theorem views_agree (diff : String → String → Inline.Ranges × Inline.Ranges) {f : FileChange}
    (hi : FileInv f) :
    ∃ unified split : Hunk → List MarkedRow,
      markedRows diff f false = (notices f).map (markRow (words diff f)) ++
        f.hunks.flatMap (fun h => markRow (words diff f) (headerRow h) :: unified h) ∧
      markedRows diff f true = (notices f).map (markRow (words diff f)) ++
        f.hunks.flatMap (fun h => markRow (words diff f) (headerRow h) :: split h) ∧
      ∀ h ∈ f.hunks, Shows (words diff f) false h.rows (unified h) ∧
        Shows (words diff f) true h.rows (split h) := by
  have hrows : ∀ split, markedRows diff f split = (notices f).map (markRow (words diff f)) ++
      f.hunks.flatMap fun h => markRow (words diff f) (headerRow h) ::
        (hunkLines split h).map (markRow (words diff f)) := by
    intro split
    rw [markedRows_eq diff hi split, Diffz.Presentation.rows, List.map_append, List.map_flatMap]
    rfl
  refine ⟨_, _, hrows false, hrows true, fun h hh => ⟨?_, ?_⟩⟩
  · exact unified_shows (hi.hunks h hh).shape
  · exact (splitFrom_split (le_refl h.rows.length)).shows (hi.hunks h hh).shape

/-- A replaced line between lines of context, and a removed one in another hunk. -/
def replaced : Bytes :=
  asBytes "diff --git a/x b/x\n@@ -1,3 +1,3 @@\n a\n-let b = 1;\n+let b = 2;\n c\n@@ -9 +8,0 @@\n-d\n"

/-- `word_diff` for ASCII text. -/
def asciiDiff (old new : String) : Inline.Ranges × Inline.Ranges :=
  (Inline.wordDiff Char.isAlphanum (fun changed len => decide (7 * len < 10 * changed)) old
    new).getD ([], [])

theorem replaced_views_agree :
    ∃ report f, parsePatch Sha256.sha256 replaced .default = .ok report ∧ f ∈ report.files ∧
      FileInv f ∧ ∃ unified split : Hunk → List MarkedRow,
        markedRows asciiDiff f false = (notices f).map (markRow (words asciiDiff f)) ++
          f.hunks.flatMap (fun h => markRow (words asciiDiff f) (headerRow h) :: unified h) ∧
        markedRows asciiDiff f true = (notices f).map (markRow (words asciiDiff f)) ++
          f.hunks.flatMap (fun h => markRow (words asciiDiff f) (headerRow h) :: split h) ∧
        ∀ h ∈ f.hunks, Shows (words asciiDiff f) false h.rows (unified h) ∧
          Shows (words asciiDiff f) true h.rows (split h) := by
  have hfiles : (parsePatch Sha256.sha256 replaced .default).map (fun r => r.files.length) =
      .ok 1 := by decide +kernel
  obtain ⟨report, hp, hlen⟩ := ok_of_map hfiles
  obtain ⟨f, hf⟩ := List.exists_mem_of_length_pos (hlen ▸ Nat.one_pos)
  have hi := FileInv.of_hunksInv (Diffz.Proof.Patch.parsePatch_hunksInv hp f hf)
  exact ⟨report, f, hp, hf, hi, views_agree asciiDiff hi⟩

example : ((parsePatch Sha256.sha256 replaced .default).map fun r =>
    r.files.flatMap fun f => (markedRows asciiDiff f true).filterMap (·.cell .right)).map
      (List.map (·.intra)) = .ok [[], [{ start := 8, stop := 9 }], []] := by
  decide +kernel

end Presentation
end Proof
end Diffz
