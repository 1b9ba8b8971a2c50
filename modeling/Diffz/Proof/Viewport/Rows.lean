import Diffz.Proof.Presentation
import Diffz.Ui.Viewport

/-!
# The numbers of the displayed rows

A hunk shows on each side the numbers of its rows, unified or split: pairing removed with added lines
keeps the order of either side. Context rows are numbered from where they start.
-/

set_option autoImplicit false

namespace Diffz
namespace Proof
namespace Viewport

open Diffz.Presentation
open Diffz.Viewport
open Diffz.Proof.Patch (HunkInv)
open Diffz.Proof.Presentation (Shaped Split ofRow_number splitFrom_split)

/-- The numbers a list of rows shows on one side. -/
def shown (side : Side) (rows : List DisplayRow) : List Nat := rows.filterMap (·.number side)

theorem shown_append (side : Side) (l m : List DisplayRow) :
    shown side (l ++ m) = shown side l ++ shown side m :=
  List.filterMap_append

theorem shown_notices (side : Side) (f : FileChange) : shown side (notices f) = [] := by
  refine List.filterMap_eq_nil_iff.mpr ?_
  intro row hrow
  simp only [notices, List.mem_append] at hrow
  rcases hrow with (h | h) | h
  all_goals
    split at h
    · rw [List.mem_singleton.mp h]
      cases side <;> rfl
    · cases h

/-! ## Hunks -/

theorem shown_unified {rows : List PatchRow}
    (hshape : ∀ r ∈ rows, ∀ side, (r.number side).isSome ↔ r.kind.on side) (side : Side) :
    shown side (rows.map unifiedLine) = rows.filterMap (·.number side) := by
  rw [shown, List.filterMap_map]
  refine List.filterMap_congr ?_
  intro r hr
  cases side with
  | left => rfl
  | right =>
    simp only [Function.comp_apply, unifiedLine, DisplayRow.number]
    split
    · exact ofRow_number r .right
    · rename_i hkind
      have hremoved : r.kind = .removed := not_not.mp hkind
      have hon : ¬ r.kind.on .right := by
        rw [hremoved]
        intro h
        cases h
      have hnone := (hshape r hr .right).not.mpr hon
      rw [Option.not_isSome_iff_eq_none.mp hnone]
      rfl

theorem shown_split {rows : List PatchRow} {lines : List DisplayRow} (hsplit : Split rows lines)
    (hshape : Shaped rows) (side : Side) : shown side lines = rows.filterMap (·.number side) := by
  have hget : ∀ left right, (DisplayRow.line left right false none).number side =
      ((DisplayRow.line left right false none).cell side).bind fun c => some c.number := by
    intro left right
    cases side <;> exact Option.map_eq_bind
  refine (hsplit.column hget hshape).trans (List.filterMap_congr fun r _ => ?_)
  rw [← ofRow_number r side]
  exact Option.map_eq_bind.symm

/-- **A hunk shows the numbers of its rows.** -/
theorem shown_hunkLines {h : Hunk} (hinv : HunkInv h) (split : Bool) (side : Side) :
    shown side (hunkLines split h) = List.range' (h.start side) (h.count side) := by
  rw [← hinv.numbers side, hunkLines]
  split
  · exact shown_split (splitFrom_split le_rfl) hinv.shape side
  · exact shown_unified hinv.shape side

/-! ## Context -/

/-- The first line of a run of context on one side. -/
def startOf (old new : Nat) : Side → Nat
  | .left => old
  | .right => new

theorem contextRow_number (split : Bool) (old new : Nat) (text : String) (side : Side) :
    (contextRow split old new text).number side = some (startOf old new side) := by
  cases side <;> cases split <;> rfl

theorem shown_contextRows (split : Bool) (old new : Nat) (lines : List String) (side : Side) :
    shown side (contextRows split old new lines) =
      List.range' (startOf old new side) lines.length := by
  induction lines generalizing old new with
  | nil => rfl
  | cons text lines ih =>
    have hnext : startOf (old + 1) (new + 1) side = startOf old new side + 1 := by
      cases side <;> rfl
    rw [shown, contextRows, List.filterMap_cons, contextRow_number, List.length_cons,
      List.range'_succ, ← hnext, ← ih]
    rfl

theorem contextRows_length (split : Bool) (old new : Nat) (lines : List String) :
    (contextRows split old new lines).length = lines.length := by
  induction lines generalizing old new with
  | nil => rfl
  | cons text lines ih => rw [contextRows, List.length_cons, ih, List.length_cons]

theorem contextRows_plain (split : Bool) (old new : Nat) (lines : List String) :
    ∀ row ∈ contextRows split old new lines, row.isHunk = false := by
  induction lines generalizing old new with
  | nil => exact nofun
  | cons text lines ih =>
    intro row hrow
    rcases List.mem_cons.mp hrow with rfl | hrow
    · rfl
    · exact ih (old + 1) (new + 1) row hrow

/-! ## The rows as blocks -/

/-- A hunk with the context that is shown around it. -/
structure Segment where
  hunk : Hunk
  above : List DisplayRow
  below : List DisplayRow

namespace Segment

def rows (split : Bool) (g : Segment) : List DisplayRow :=
  headerRow g.hunk :: (g.above ++ hunkLines split g.hunk ++ g.below)

/-- The segment with more context, next to what it shows on that side. -/
def insert (g : Segment) (above : Bool) (rows : List DisplayRow) : Segment :=
  if above then { g with above := rows ++ g.above } else { g with below := g.below ++ rows }

end Segment

/-- The viewport shows the segments one after the other, below the notices of the file. -/
structure Laid (v : Viewport) (f : FileChange) (segs : List Segment) : Prop where
  change : v.change = some f
  hunks : segs.map Segment.hunk = f.hunks
  rows : v.rows = notices f ++ segs.flatMap (Segment.rows v.split)
  plain : ∀ g ∈ segs, ∀ row ∈ g.above ++ g.below, row.isHunk = false
  headers : v.hunkRows = hunkRowsOf v.rows

theorem hunkLines_plain (split : Bool) (h : Hunk) : ∀ row ∈ hunkLines split h, row.isHunk = false := by
  have hsplit : ∀ fuel rows, ∀ row ∈ splitFrom fuel rows, row.isHunk = false := by
    intro fuel
    induction fuel with
    | zero => exact fun _ => nofun
    | succ fuel ih =>
      intro rows row hrow
      cases rows with
      | nil => cases hrow
      | cons r rest =>
        rw [splitFrom] at hrow
        split at hrow
        · rcases List.mem_append.mp hrow with hrow | hrow
          · obtain ⟨p, -, rfl⟩ := List.mem_map.mp hrow
            rfl
          · exact ih _ row hrow
        · rcases List.mem_cons.mp hrow with rfl | hrow
          · rfl
          · exact ih _ row hrow
  intro row hrow
  rw [hunkLines] at hrow
  split at hrow
  · exact hsplit _ _ row hrow
  · obtain ⟨r, -, rfl⟩ := List.mem_map.mp hrow
    rfl

theorem notices_plain (f : FileChange) : ∀ row ∈ notices f, row.isHunk = false := by
  intro row hrow
  simp only [notices, List.mem_append] at hrow
  rcases hrow with (h | h) | h
  all_goals
    split at h
    · rw [List.mem_singleton.mp h]
      rfl
    · cases h

/-- The header of a segment is where its block begins. -/
theorem hunkRowsOf_segments (f : FileChange) (split : Bool) {segs : List Segment}
    (hplain : ∀ g ∈ segs, ∀ row ∈ g.above ++ g.below, row.isHunk = false) :
    hunkRowsOf (notices f ++ segs.flatMap (Segment.rows split)) =
      blockStarts (Segment.rows split) (notices f).length segs := by
  refine positions_blocks (notices_plain f) ?_
  intro g hg
  have hrest : ∀ row ∈ g.above ++ hunkLines split g.hunk ++ g.below, row.isHunk = false := by
    intro row hrow
    rcases List.mem_append.mp hrow with hrow | hrow
    · rcases List.mem_append.mp hrow with hrow | hrow
      · exact hplain g hg row (List.mem_append_left _ hrow)
      · exact hunkLines_plain split g.hunk row hrow
    · exact hplain g hg row (List.mem_append_right _ hrow)
  rw [Segment.rows, positions, positions_eq_nil hrest]
  rfl

/-- The segments of a file with nothing expanded. -/
def bare (f : FileChange) : List Segment := f.hunks.map fun h => ⟨h, [], []⟩

theorem laid_bare {v : Diffz.Viewport} {f : FileChange} (hf : v.change = some f)
    (hrows : v.rows = Presentation.rows f v.split) (hheaders : v.hunkRows = hunkRowsOf v.rows) :
    Laid v f (bare f) where
  change := hf
  hunks := by
    rw [bare, List.map_map]
    exact List.map_id _
  rows := by
    rw [hrows, Presentation.rows, bare, List.flatMap_map]
    congr 2
    funext h
    rw [Segment.rows, List.nil_append, List.append_nil]
  plain := by
    intro g hg
    obtain ⟨h, -, rfl⟩ := List.mem_map.mp hg
    intro r hr
    cases hr
  headers := hheaders

theorem laid_new {s : Snapshot} {file : FileId} {f : FileChange} (hf : s.file file = some f)
    (split : Bool) : Laid (.new s file split) f (bare f) := by
  refine laid_bare hf ?_ rfl
  simp only [Viewport.new, presented, hf, Option.map_some, Option.getD_some]

theorem Laid.configure {v : Diffz.Viewport} {f : FileChange} {segs : List Segment}
    (h : Laid v f segs) {split : Bool} (hne : split ≠ v.split) :
    Laid (v.configure split) f (bare f) := by
  have hf : v.snapshot.file v.file = some f := h.change
  rw [Viewport.configure, if_neg hne]
  refine laid_bare hf ?_ rfl
  simp only [presented, hf, Option.map_some, Option.getD_some]

/-! ## Inserting context -/

/-- Where the new rows go in the block: below the header, or at its end. -/
def Segment.slot (g : Segment) (above split : Bool) : Nat :=
  if above then 1 else (g.rows split).length

theorem Segment.slot_le (g : Segment) (above split : Bool) :
    g.slot above split ≤ (g.rows split).length := by
  cases above with
  | true => simp [slot, rows]
  | false => exact le_rfl

theorem Segment.insert_rows (g : Segment) (above split : Bool) (ctx : List DisplayRow) :
    (g.insert above ctx).rows split =
      (g.rows split).take (g.slot above split) ++ ctx ++ (g.rows split).drop (g.slot above split) := by
  cases above with
  | true => simp [insert, rows, slot]
  | false =>
    simp only [slot, Bool.false_eq_true, if_false, List.take_length, List.drop_length]
    simp [insert, rows]

theorem Segment.insert_plain {g : Segment} {above : Bool} {ctx : List DisplayRow}
    (hg : ∀ row ∈ g.above ++ g.below, row.isHunk = false) (hctx : ∀ row ∈ ctx, row.isHunk = false) :
    ∀ row ∈ (g.insert above ctx).above ++ (g.insert above ctx).below, row.isHunk = false := by
  simp only [List.mem_append] at hg ⊢
  cases above with
  | true =>
    rintro row (hrow | hrow)
    · rcases List.mem_append.mp hrow with hrow | hrow
      · exact hctx row hrow
      · exact hg row (.inl hrow)
    · exact hg row (.inr hrow)
  | false =>
    rintro row (hrow | hrow)
    · exact hg row (.inl hrow)
    · rcases List.mem_append.mp hrow with hrow | hrow
      · exact hg row (.inr hrow)
      · exact hctx row hrow

theorem insert_block {α : Type} {pre block post ctx : List α} {i : Nat} (hi : i ≤ block.length) :
    (pre ++ (block ++ post)).take (pre.length + i) ++ ctx ++
      (pre ++ (block ++ post)).drop (pre.length + i) =
    pre ++ ((block.take i ++ ctx ++ block.drop i) ++ post) := by
  rw [List.take_length_add_append, List.drop_length_add_append, List.take_append_of_le_length hi,
    List.drop_append_of_le_length hi]
  simp only [List.append_assoc]

section Insert

variable {v : Diffz.Viewport} {f : FileChange} {pre post : List Segment} {g : Segment}

/-- Where the block of a segment begins. -/
def firstRow (v : Diffz.Viewport) (f : FileChange) (pre : List Segment) : Nat :=
  (notices f ++ pre.flatMap (Segment.rows v.split)).length

theorem Laid.starts (h : Laid v f (pre ++ g :: post)) :
    v.hunkRows = blockStarts (Segment.rows v.split) (notices f).length pre ++ firstRow v f pre ::
      blockStarts (Segment.rows v.split) (firstRow v f pre + (g.rows v.split).length) post := by
  rw [h.headers, h.rows, hunkRowsOf_segments f v.split h.plain, blockStarts_append, blockStarts,
    firstRow, List.length_append]

/-- What the code does, in terms of the blocks. -/
theorem Laid.insertContext_eq (h : Laid v f (pre ++ g :: post)) (above : Bool) (old new : Nat)
    (lines : List String) :
    v.insertContext pre.length above old new lines =
      { v with
        rows := v.rows.take (firstRow v f pre + g.slot above v.split) ++
          contextRows v.split old new lines ++ v.rows.drop (firstRow v f pre + g.slot above v.split)
        hunkRows := blockStarts (Segment.rows v.split) (notices f).length pre ++ firstRow v f pre ::
          blockStarts (Segment.rows v.split)
            (firstRow v f pre + (g.rows v.split).length + lines.length) post
        expanded := v.expanded.put pre.length (
          if above then ((v.expansion pre.length).1 + lines.length, (v.expansion pre.length).2)
          else ((v.expansion pre.length).1, (v.expansion pre.length).2 + lines.length)) } := by
  have hheader : v.hunkRows[pre.length]? = some (firstRow v f pre) := by
    rw [h.starts, List.getElem?_append_right (by simp)]
    simp
  have hindex : (if above then firstRow v f pre + 1
      else (v.hunkRows[pre.length + 1]?).getD v.rows.length) =
      firstRow v f pre + g.slot above v.split := by
    cases above with
    | true => rfl
    | false =>
      rw [h.starts, List.getElem?_append_right (by simp)]
      cases post with
      | nil => simp [blockStarts, h.rows, Segment.slot, firstRow, Nat.add_assoc]
      | cons next post => simp [blockStarts, Segment.slot]
  have hrest : v.hunkRows.take (pre.length + 1) ++
      (v.hunkRows.drop (pre.length + 1)).map (· + lines.length) =
      blockStarts (Segment.rows v.split) (notices f).length pre ++ firstRow v f pre ::
        blockStarts (Segment.rows v.split)
          (firstRow v f pre + (g.rows v.split).length + lines.length) post := by
    have hlen : (blockStarts (Segment.rows v.split) (notices f).length pre).length = pre.length :=
      blockStarts_length _ _
    rw [h.starts, ← hlen, List.take_length_add_append, List.drop_length_add_append,
      List.append_assoc, ← blockStarts_shift _ lines.length]
    rfl
  simp only [insertContext, hheader, hindex, hrest]

theorem Laid.insert (h : Laid v f (pre ++ g :: post)) (above : Bool) (old new : Nat)
    (lines : List String) :
    Laid (v.insertContext pre.length above old new lines) f
      (pre ++ g.insert above (contextRows v.split old new lines) :: post) := by
  have hrows : v.rows.take (firstRow v f pre + g.slot above v.split) ++
      contextRows v.split old new lines ++ v.rows.drop (firstRow v f pre + g.slot above v.split) =
      notices f ++ (pre ++ g.insert above (contextRows v.split old new lines) :: post).flatMap
        (Segment.rows v.split) := by
    rw [h.rows, List.flatMap_append, List.flatMap_cons, ← List.append_assoc, firstRow,
      insert_block (g.slot_le above v.split), ← Segment.insert_rows, List.flatMap_append,
      List.flatMap_cons, List.append_assoc]
  have hplain : ∀ x ∈ pre ++ g.insert above (contextRows v.split old new lines) :: post,
      ∀ row ∈ x.above ++ x.below, row.isHunk = false := by
    intro x hx
    rcases List.mem_append.mp hx with hx | hx
    · exact h.plain x (List.mem_append_left _ hx)
    rcases List.mem_cons.mp hx with rfl | hx
    · exact Segment.insert_plain (h.plain g (by simp)) (contextRows_plain v.split old new lines)
    · exact h.plain x (by simp [hx])
  have hlength : ((g.insert above (contextRows v.split old new lines)).rows v.split).length =
      (g.rows v.split).length + lines.length := by
    cases above <;> simp [Segment.insert, Segment.rows, contextRows_length] <;> omega
  rw [h.insertContext_eq]
  refine ⟨h.change, ?_, hrows, hplain, ?_⟩
  · rw [← h.hunks, List.map_append, List.map_cons, List.map_append, List.map_cons]
    cases above <;> rfl
  · dsimp only
    rw [hrows, hunkRowsOf_segments f v.split hplain, blockStarts_append, blockStarts, hlength,
      firstRow, List.length_append, Nat.add_assoc]

end Insert

end Viewport
end Proof
end Diffz
