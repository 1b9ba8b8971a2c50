import Diffz.Proof.FileTree.Rows

/-!
# What the file tree shows

Each matching file has a row unless a directory on the way to it is collapsed, and collapsing a
directory takes away the rows below it. A reader knows the directories above a row by the depths.

A path that begins with a slash has a directory without a name at the top, and the directories in
that one are collapsed with the directories of the same names at the top, whose paths they have. No
path in a repository begins so.
-/

set_option autoImplicit false

namespace Diffz
namespace Proof
namespace FileTree

open Diffz.FileTree

/-- The files that have a row. -/
def shown (rows : List TreeRow) : List (FileId × String) :=
  rows.filterMap fun r => r.file.map fun id => (id, r.path)

/-- The row is that of a directory on the way to `path`. -/
def leadsTo (path : String) (r : TreeRow) : Bool := r.file.isNone && decide (Under r.path path)

/-- The label of the last directory row of this depth. -/
def labelAt (before : List TreeRow) (depth : Nat) : Option String :=
  (before.reverse.find? fun r => r.file.isNone && decide (r.depth = depth)).map TreeRow.label

/-- The path that a file's row shows, with the labels of the directories above it. -/
def spelledPath (before : List TreeRow) (r : TreeRow) : Option String :=
  ((List.range r.depth).mapM (labelAt before)).map fun labels =>
    "/".intercalate (labels ++ [r.pathPrefix ++ r.label])

section Outline

variable {v : View} {o : Outline Folder Leaf} {r : Outline.Row Folder Leaf}

@[simp] theorem toRow_depth : (toRow v r).depth = r.depth := by
  obtain ⟨above, f | ⟨d, b⟩⟩ := r <;> rfl

theorem toRow_file_isNone {above : List Folder} {d : Folder} {b : Bool} :
    (toRow v ⟨above, .folder d b⟩).file.isNone = true := rfl

theorem shown_rows : shown ((o.rows (isOpen v) []).map (toRow v)) =
    ((o.leaves []).filter fun l => l.1.all (isOpen v)).map fun l => entryOf l.2.file := by
  have hrow : ((fun r : TreeRow => r.file.map fun id => (id, r.path)) ∘ toRow v) =
      fun r => r.leaf?.map fun l => entryOf l.2.file := by
    funext r
    obtain ⟨above, f | ⟨d, b⟩⟩ := r <;> rfl
  have hnone : ∀ d ∈ ([] : List Folder), isOpen v d = true := by
    intro d hd
    cases hd
  rw [shown, List.filterMap_map, hrow, ← List.map_filterMap, Outline.filterMap_leaf_rows hnone]

theorem labelAt_rows (before : List (Outline.Row Folder Leaf)) (n : Nat) :
    labelAt (before.map (toRow v)) n = (Outline.lastAt before n).map Folder.label := by
  induction before using List.reverseRecOn with
  | nil => rfl
  | append_singleton before r ih =>
    obtain ⟨above, f | ⟨d, b⟩⟩ := r
    · rw [Outline.lastAt_leaf, ← ih]
      simp [labelAt, toRow, fileRow]
    · rw [Outline.lastAt_folder]
      by_cases hn : above.length = n
      · simp [labelAt, toRow, dirRow, Outline.Row.depth, hn]
      · rw [if_neg hn, ← ih]
        simp [labelAt, toRow, dirRow, Outline.Row.depth, hn]

end Outline

/-! ## The outline of a tree -/

theorem mapM_range {α : Type} {f : Nat → Option α} {l : List α} (h : ∀ n < l.length, f n = l[n]?) :
    (List.range l.length).mapM f = some l := by
  induction l using List.reverseRecOn with
  | nil => rfl
  | append_singleton l a ih =>
    have hlast := h l.length (by simp)
    have hfront : ∀ n < l.length, f n = l[n]? := by
      intro n hn
      rw [h n (by simp; omega), List.getElem?_append_left hn]
    rw [List.getElem?_concat_length] at hlast
    rw [List.length_append, List.length_singleton, List.range_succ, List.mapM_append, ih hfront]
    simp [hlast]

theorem intercalate_labels (ds : List Folder) (x : String) :
    "/".intercalate (ds.map Folder.label ++ [x]) = spelled ds ++ x := by
  induction ds with
  | nil =>
    rw [List.map_nil, List.nil_append, String.intercalate_singleton, spelled, String.empty_append]
  | cons d ds ih =>
    rw [List.map_cons, List.cons_append, String.intercalate_cons_of_ne_nil (by simp), ih, spelled]
    simp only [String.append_assoc]

section Tree

variable {v : View} {dir : Directory} {l : List Folder × Leaf} {d : Folder}

theorem tree_spelled (h : WellFormed (leadOf "") dir) (hl : l ∈ (items "" dir).leaves []) :
    Spells l := by
  obtain ⟨dirs, files⟩ := dir
  exact items_spelled h (fun c hc habove l hl => leaf_spelled (at_child h hc) habove hl) rfl hl

theorem tree_entries (h : WellFormed (leadOf "") dir) :
    ((items "" dir).leaves []).map (fun l => entryOf l.2.file) = listing dir := by
  obtain ⟨dirs, files⟩ := dir
  exact items_entries fun c hc above => leaf_entries (at_child h hc)

theorem tree_nodup (h : WellFormed (leadOf "") dir) :
    ((items "" dir).folders.map Folder.path).Nodup := by
  obtain ⟨dirs, files⟩ := dir
  exact nodup_items h fun c hc => nodup_folders (at_child h hc)

theorem mem_of_way (h : WellFormed (leadOf "") dir) (hl : l ∈ (items "" dir).leaves [])
    (hd : d ∈ (items "" dir).folders) (hunder : Under d.path l.2.file.2) : d ∈ l.1 := by
  obtain ⟨dirs, files⟩ := dir
  exact mem_items_of_under h (fun c hc l hl d hd => mem_of_under (at_child h hc) hl hd) hl hd hunder

theorem way_of_mem (h : WellFormed (leadOf "") dir) (hl : l ∈ (items "" dir).leaves [])
    (hd : d ∈ l.1) : Under d.path l.2.file.2 := by
  obtain ⟨dirs, files⟩ := dir
  obtain ⟨c, hc, hl⟩ | ⟨f, hf, rfl⟩ := mem_leaves_items.mp hl
  · exact (under_of_mem (at_child h hc) hl hd).resolve_left List.not_mem_nil
  · cases hd

/-- A leaf is under open folders only when the directories shown on the way to it are. -/
theorem all_isOpen (h : WellFormed (leadOf "") dir) (hl : l ∈ (items "" dir).leaves []) :
    l.1.all (isOpen v) = (((items "" dir).rows (isOpen v) []).map (toRow v)).all fun r =>
      !leadsTo l.2.file.2 r || r.expanded := by
  rw [Bool.eq_iff_iff, List.all_eq_true, List.all_eq_true]
  constructor
  · intro hopen row hrow
    obtain ⟨⟨above, f | ⟨d, b⟩⟩, hr, rfl⟩ := List.mem_map.mp hrow
    · rfl
    obtain ⟨hd, rfl⟩ := Outline.folder_row hr rfl
    by_cases hunder : Under d.path l.2.file.2
    · have hexpanded : (toRow v ⟨above, .folder d (isOpen v d)⟩).expanded = true :=
        hopen d (mem_of_way h hl hd hunder)
      rw [hexpanded, Bool.or_true]
    · simp [leadsTo, toRow, dirRow, hunder]
  · intro hrows d hd
    by_contra hclosed
    obtain ⟨⟨above, item⟩, hr, d, hd, rfl⟩ := Outline.closed_row hl (d := d) hd
      (Bool.eq_false_iff.mpr hclosed)
    have hway := way_of_mem h hl hd
    have hrow := hrows _ (List.mem_map_of_mem hr)
    simp [leadsTo, toRow, dirRow, hway] at hrow

end Tree

/-! ## The rows of a file tree -/

section Rows

variable {lower : String → String} {t : FileTree} {collapsed : List String} {query : String}

def viewOf (lower : String → String) (t : FileTree) (collapsed : List String) (query : String) :
    View :=
  ⟨collapsed, lower query ≠ "", t.oldPaths⟩

theorem rows_eq : t.rows lower collapsed query =
    ((items "" (t.root lower (lower query))).rows (isOpen (viewOf lower t collapsed query)) []).map
      (toRow (viewOf lower t collapsed query)) :=
  @flatten_items _ "" [] _ fun d _ label path => flattenDir_eq _ d.2 label path []

/-- **A file is shown once, unless a directory on the way to it is collapsed.** -/
theorem rows_shown (hids : (t.entries.map Prod.fst).Nodup) (hpaths : Relative t.entries) :
    (shown (t.rows lower collapsed query)).Perm (t.entries.filter fun e =>
      t.matchesQuery lower (lower query) e &&
        (t.rows lower collapsed query).all fun r => !leadsTo e.2 r || r.expanded) := by
  obtain ⟨hwf, hperm⟩ := @root_listing lower t (lower query) hids hpaths
  have hshown : shown (t.rows lower collapsed query) =
      (listing (t.root lower (lower query))).filter fun e =>
        (t.rows lower collapsed query).all fun r => !leadsTo e.2 r || r.expanded := by
    rw [← tree_entries hwf, List.filter_map, rows_eq, shown_rows]
    refine congrArg (List.map _) (List.filter_congr fun l hl => ?_)
    exact all_isOpen hwf hl
  have hboth := hperm.filter fun e =>
    (t.rows lower collapsed query).all fun r => !leadsTo e.2 r || r.expanded
  rw [List.filter_filter, ← hshown] at hboth
  simpa only [Bool.and_comm] using hboth

/-- **The labels above a row spell its path.** -/
theorem rows_spelled (hids : (t.entries.map Prod.fst).Nodup) (hpaths : Relative t.entries)
    {before after : List TreeRow} {r : TreeRow}
    (hrows : t.rows lower collapsed query = before ++ r :: after) (hfile : r.file ≠ none) :
    spelledPath before r = some r.path := by
  obtain ⟨hwf, -⟩ := @root_listing lower t (lower query) hids hpaths
  rw [rows_eq] at hrows
  obtain ⟨front, back, hsplit, rfl, hback⟩ := List.map_eq_append_iff.mp hrows
  obtain ⟨⟨above, f | ⟨d, b⟩⟩, back, rfl, rfl, -⟩ := List.map_eq_cons_iff.mp hback
  · have hmem : (above, f) ∈ (items "" (t.root lower (lower query))).leaves [] := by
      have hnone : ∀ d ∈ ([] : List Folder), isOpen (viewOf lower t collapsed query) d = true := by
        intro d hd
        cases hd
      have hshown : (above, f) ∈ ((items "" (t.root lower (lower query))).leaves []).filter
          fun l => l.1.all (isOpen (viewOf lower t collapsed query)) := by
        rw [← Outline.filterMap_leaf_rows hnone, hsplit]
        exact List.mem_filterMap.mpr ⟨_, List.mem_append_right _ List.mem_cons_self, rfl⟩
      exact List.mem_of_mem_filter hshown
    have hgives : Outline.Gives front above := by
      have hnil : Outline.Gives ([] : List (Outline.Row Folder Leaf)) [] := by
        intro n hn
        cases hn
      exact (Outline.placed_rows hnil).gives hsplit
    have hlabels : (List.range above.length).mapM
        (labelAt (front.map (toRow (viewOf lower t collapsed query)))) =
          some (above.map Folder.label) := by
      have hlength : above.length = (above.map Folder.label).length := by rw [List.length_map]
      rw [hlength]
      refine mapM_range fun n hn => ?_
      rw [labelAt_rows, hgives n (by rwa [hlength]), List.getElem?_map]
    have hpath : f.file.2 = spelled above ++ f.pathPrefix ++ nameOf f.file := tree_spelled hwf hmem
    rw [spelledPath, toRow_depth, Outline.Row.depth, hlabels, Option.map_some, intercalate_labels]
    refine congrArg some ?_
    rw [← String.append_assoc]
    exact hpath.symm
  · exact absurd rfl hfile

theorem rows_steps : (t.rows lower collapsed query).IsChain fun r r' => r'.depth ≤ r.depth + 1 := by
  rw [rows_eq, List.isChain_map]
  simp only [toRow_depth]
  exact Outline.isChain_rows

/-- **Collapsing a directory removes the rows below it.** -/
theorem rows_collapse (hids : (t.entries.map Prod.fst).Nodup) (hpaths : Relative t.entries)
    (hquery : lower query = "") {before after : List TreeRow} {r : TreeRow}
    (hrows : t.rows lower collapsed query = before ++ r :: after) (hfile : r.file = none)
    (hexpanded : r.expanded = true) :
    t.rows lower (r.path :: collapsed) query =
      before ++ { r with expanded := false } :: after.dropWhile fun x => r.depth < x.depth := by
  obtain ⟨hwf, -⟩ := @root_listing lower t (lower query) hids hpaths
  rw [rows_eq] at hrows
  obtain ⟨front, back, hsplit, rfl, hback⟩ := List.map_eq_append_iff.mp hrows
  obtain ⟨⟨above, f | ⟨d, b⟩⟩, back, rfl, rfl, rfl⟩ := List.map_eq_cons_iff.mp hback
  · cases hfile
  cases hexpanded
  have hopen : isOpen (viewOf lower t (d.path :: collapsed) query) =
      Outline.without (isOpen (viewOf lower t collapsed query)) Folder.path d.path := by
    funext x
    simp [isOpen, viewOf, View.isExpanded, Outline.without, hquery, Bool.and_comm]
  have hview : toRow (viewOf lower t (d.path :: collapsed) query) =
      toRow (viewOf lower t collapsed query) := rfl
  have hpath : (toRow (viewOf lower t collapsed query) ⟨above, .folder d true⟩).path = d.path := rfl
  have hdeeper : ((fun x : TreeRow => decide (above.length < x.depth)) ∘
      toRow (viewOf lower t collapsed query)) = fun r => decide (above.length < r.depth) := by
    funext x
    rw [Function.comp_apply, toRow_depth]
  rw [rows_eq, hpath, hview, hopen, Outline.rows_close (tree_nodup hwf) hsplit, List.map_append,
    List.map_cons, ← hdeeper, ← List.dropWhile_map]
  rfl

/-- **With a query every match is shown.** -/
theorem rows_filtering (hids : (t.entries.map Prod.fst).Nodup) (hpaths : Relative t.entries)
    (hquery : lower query ≠ "") :
    (shown (t.rows lower collapsed query)).Perm
      (t.entries.filter (t.matchesQuery lower (lower query))) := by
  obtain ⟨hwf, hperm⟩ := @root_listing lower t (lower query) hids hpaths
  have hopen : ∀ d, isOpen (viewOf lower t collapsed query) d = true := by
    intro d
    simp [isOpen, viewOf, View.isExpanded, hquery]
  have hall : ((items "" (t.root lower (lower query))).leaves []).filter
      (fun l => l.1.all (isOpen (viewOf lower t collapsed query))) =
        (items "" (t.root lower (lower query))).leaves [] := by
    rw [List.filter_eq_self]
    exact fun l _ => List.all_eq_true.mpr fun d _ => hopen d
  rw [rows_eq, shown_rows, hall, tree_entries hwf]
  exact hperm

end Rows

def sampleTree : FileTree :=
  { entries := [(⟨"1"⟩, "s/l/b"), (⟨"2"⟩, "s/a"), (⟨"3"⟩, "s/l/c"), (⟨"4"⟩, "d/r")]
    oldPaths := fun _ => none }

/-- A directory without a name at the top, and one of the same name in it and beside it. -/
def slashedTree : FileTree :=
  { entries := [(⟨"1"⟩, "/x/a"), (⟨"2"⟩, "/x/b"), (⟨"3"⟩, "/y"), (⟨"4"⟩, "x/a"), (⟨"5"⟩, "x/b")]
    oldPaths := fun _ => none }

end FileTree
end Proof
end Diffz
