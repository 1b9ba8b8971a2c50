import Diffz.Lib.Outline
import Diffz.Proof.FileTree.Tree

/-!
# The rows of the file tree

The rows are those of an outline (`flattenDir_eq`), whose folders and leaves are left when chains
are joined and single files folded in. What a row stands for is then a question about the folders it
is under: their labels spell its path (`leaf_spelled`), and they are the folders on the way to it
(`mem_of_under`, `under_of_mem`). No two folders have the same path (`nodup_folders`).
-/

set_option autoImplicit false

namespace Diffz
namespace Proof
namespace FileTree

open Diffz.FileTree

/-! ## The outline of a directory -/

structure Folder where
  label : String
  path : String

structure Leaf where
  pathPrefix : String
  file : (String ×ₗ String) × String

mutual

def outlineDir (label path : String) : Directory → Outline Folder Leaf
  | .mk dirs files =>
    match dirs, files.entries with
    | [(name, child)], [] => outlineDir (label ++ "/" ++ name) (path ++ "/" ++ name) child
    | [], [f] => .leaf ⟨label ++ "/", f⟩ .nil
    | dirs, entries =>
      .folder ⟨label, path⟩
        ((outlineDirs path dirs).append (.ofLeaves (entries.map (Leaf.mk "")))) .nil

def outlineDirs (parent : String) : List (String × Directory) → Outline Folder Leaf
  | [] => .nil
  | d :: dirs => (outlineEntry parent d).append (outlineDirs parent dirs)

def outlineEntry (parent : String) : String × Directory → Outline Folder Leaf
  | (name, child) => outlineDir name (below parent name) child

end

/-- What is in a directory. -/
def items (parent : String) (dir : Directory) : Outline Folder Leaf :=
  (outlineDirs parent dir.dirs).append (.ofLeaves (dir.files.entries.map (Leaf.mk "")))

/-- A directory is joined to the one it has, or folded into its file, or shown. -/
inductive Kind (dirs : List (String × Directory)) (files : OrdMap (String ×ₗ String) String) : Prop
  | chain (name : String) (child : Directory) (hdirs : dirs = [(name, child)])
      (hfiles : files.entries = [])
  | single (f : (String ×ₗ String) × String) (hdirs : dirs = []) (hfiles : files.entries = [f])
  | plain (hrows : ∀ v label path depth, flattenDir v label path depth (.mk dirs files) =
        dirRow v label path depth ::
          if v.isExpanded path then flatten v path (depth + 1) (.mk dirs files) else [])
      (houtline : ∀ label path, outlineDir label path (.mk dirs files) =
        .folder ⟨label, path⟩ (items path (.mk dirs files)) .nil)

theorem kind (dirs : List (String × Directory)) (files : OrdMap (String ×ₗ String) String) :
    Kind dirs files := by
  obtain ⟨entries, sorted⟩ := files
  rcases dirs with _ | ⟨⟨name, child⟩, _ | ⟨d, dirs⟩⟩ <;>
    rcases entries with _ | ⟨f, _ | ⟨g, entries⟩⟩
  · exact .plain (fun v label path depth => rfl) fun label path => rfl
  · exact .single f rfl rfl
  · exact .plain (fun v label path depth => rfl) fun label path => rfl
  · exact .chain name child rfl rfl
  · exact .plain (fun v label path depth => rfl) fun label path => rfl
  · exact .plain (fun v label path depth => rfl) fun label path => rfl
  · exact .plain (fun v label path depth => rfl) fun label path => rfl
  · exact .plain (fun v label path depth => rfl) fun label path => rfl
  · exact .plain (fun v label path depth => rfl) fun label path => rfl

section Outline

variable {dirs : List (String × Directory)} {files : OrdMap (String ×ₗ String) String}
  {label path parent name : String} {child dir : Directory} {above : List Folder}
  {f : (String ×ₗ String) × String}

theorem outlineDir_chain (h : files.entries = []) :
    outlineDir label path (.mk [(name, child)] files) =
      outlineDir (label ++ "/" ++ name) (path ++ "/" ++ name) child := by
  obtain ⟨entries, sorted⟩ := files
  cases h
  rfl

theorem outlineDir_single (h : files.entries = [f]) :
    outlineDir label path (.mk [] files) = .leaf ⟨label ++ "/", f⟩ .nil := by
  obtain ⟨entries, sorted⟩ := files
  cases h
  rfl

theorem flattenDir_chain {v : View} {depth : Nat} (h : files.entries = []) :
    flattenDir v label path depth (.mk [(name, child)] files) =
      flattenDir v (label ++ "/" ++ name) (path ++ "/" ++ name) depth child := by
  obtain ⟨entries, sorted⟩ := files
  cases h
  rfl

theorem flattenDir_single {v : View} {depth : Nat} (h : files.entries = [f]) :
    flattenDir v label path depth (.mk [] files) = [fileRow v (label ++ "/") depth f] := by
  obtain ⟨entries, sorted⟩ := files
  cases h
  rfl

theorem flattenDirs_eq (v : View) (parent : String) (depth : Nat) :
    flattenDirs v parent depth dirs =
      dirs.flatMap fun d => flattenDir v d.1 (below parent d.1) depth d.2 := by
  induction dirs with
  | nil => rfl
  | cons d dirs ih =>
    obtain ⟨name, child⟩ := d
    rw [flattenDirs, flattenEntry, ih, List.flatMap_cons]

theorem rows_outlineDirs (isOpen : Folder → Bool) : (outlineDirs parent dirs).rows isOpen above =
    dirs.flatMap fun d => (outlineDir d.1 (below parent d.1) d.2).rows isOpen above := by
  induction dirs with
  | nil => rfl
  | cons d dirs ih =>
    obtain ⟨name, child⟩ := d
    rw [outlineDirs, outlineEntry, Outline.rows_append, ih, List.flatMap_cons]

theorem leaves_outlineDirs : (outlineDirs parent dirs).leaves above =
    dirs.flatMap fun d => (outlineDir d.1 (below parent d.1) d.2).leaves above := by
  induction dirs with
  | nil => rfl
  | cons d dirs ih =>
    obtain ⟨name, child⟩ := d
    rw [outlineDirs, outlineEntry, Outline.leaves_append, ih, List.flatMap_cons]

theorem folders_outlineDirs : (outlineDirs parent dirs).folders =
    dirs.flatMap fun d => (outlineDir d.1 (below parent d.1) d.2).folders := by
  induction dirs with
  | nil => rfl
  | cons d dirs ih =>
    obtain ⟨name, child⟩ := d
    rw [outlineDirs, outlineEntry, Outline.folders_append, ih, List.flatMap_cons]

theorem folders_items : (items parent (.mk dirs files)).folders =
    dirs.flatMap fun d => (outlineDir d.1 (below parent d.1) d.2).folders := by
  rw [items, Outline.folders_append, Outline.folders_ofLeaves, List.append_nil]
  exact folders_outlineDirs

/-- A leaf is in a directory of the directory, or one of its files. -/
theorem mem_leaves_items {l : List Folder × Leaf} :
    l ∈ (items parent (.mk dirs files)).leaves above ↔
      (∃ d ∈ dirs, l ∈ (outlineDir d.1 (below parent d.1) d.2).leaves above) ∨
        ∃ f ∈ files.entries, l = (above, ⟨"", f⟩) := by
  rw [items, Outline.leaves_append, Outline.leaves_ofLeaves, List.mem_append, List.map_map]
  refine or_congr ?_ ?_
  · rw [← List.mem_flatMap]
    exact iff_of_eq (congrArg (l ∈ ·) leaves_outlineDirs)
  · rw [List.mem_map]
    exact exists_congr fun f => and_congr_right fun _ => eq_comm

theorem leaves_plain (houtline : ∀ label path, outlineDir label path (.mk dirs files) =
    .folder ⟨label, path⟩ (items path (.mk dirs files)) .nil) :
    (outlineDir label path (.mk dirs files)).leaves above =
      (items path (.mk dirs files)).leaves (above ++ [⟨label, path⟩]) := by
  rw [houtline, Outline.leaves, Outline.leaves, List.append_nil]

end Outline

/-! ## The rows are those of the outline -/

/-- The row of a file or a directory, as it is under the folders above it. -/
def toRow (v : View) (r : Outline.Row Folder Leaf) : TreeRow :=
  match r.item with
  | .leaf l => fileRow v l.pathPrefix r.depth l.file
  | .folder d isOpen => { dirRow v d.label d.path r.depth with expanded := isOpen }

def isOpen (v : View) (d : Folder) : Bool := v.isExpanded d.path

theorem flatten_items {v : View} {parent : String} {above : List Folder} {dir : Directory}
    (h : ∀ d ∈ dir.dirs, ∀ label path, flattenDir v label path above.length d.2 =
      ((outlineDir label path d.2).rows (isOpen v) above).map (toRow v)) :
    flatten v parent above.length dir =
      ((items parent dir).rows (isOpen v) above).map (toRow v) := by
  have hdirs : flattenDirs v parent above.length dir.dirs =
      ((outlineDirs parent dir.dirs).rows (isOpen v) above).map (toRow v) := by
    rw [flattenDirs_eq, rows_outlineDirs, List.map_flatMap]
    exact List.flatMap_congr fun d hd => h d hd d.1 (below parent d.1)
  rw [flatten, items, Outline.rows_append, List.map_append, hdirs, Outline.rows_ofLeaves,
    List.map_map, List.map_map]
  rfl

theorem flattenDir_eq (v : View) (dir : Directory) : ∀ label path (above : List Folder),
    flattenDir v label path above.length dir =
      ((outlineDir label path dir).rows (isOpen v) above).map (toRow v) := by
  induction dir using directory_induction with
  | h dirs files ih =>
    intro label path above
    cases kind dirs files with
    | chain name child hdirs hfiles =>
      subst hdirs
      rw [flattenDir_chain hfiles, outlineDir_chain hfiles]
      exact ih (name, child) (List.mem_singleton.mpr rfl) _ _ above
    | single f hdirs hfiles =>
      subst hdirs
      rw [flattenDir_single hfiles, outlineDir_single hfiles]
      rfl
    | plain hrows houtline =>
      have hitems := @flatten_items v path (above ++ [⟨label, path⟩]) (.mk dirs files)
        fun d hd label path => ih d hd label path _
      rw [List.length_append, List.length_singleton] at hitems
      have hexpanded : v.isExpanded path = isOpen v ⟨label, path⟩ := rfl
      rw [hrows, houtline, Outline.rows, Outline.rows, List.append_nil, List.map_cons, hitems,
        hexpanded]
      by_cases hopen : isOpen v ⟨label, path⟩
      · rw [if_pos hopen, if_pos hopen]
        rfl
      · rw [if_neg hopen, if_neg hopen]
        rfl

/-! ## Where the directories are -/

/-- What the paths in a directory begin with. -/
def leadOf (path : String) : String := if path = "" then "" else path ++ "/"

theorem below_eq (parent name : String) : below parent name = leadOf parent ++ name := by
  by_cases h : parent = ""
  · rw [below, leadOf, if_pos h, if_pos h, String.empty_append]
  · rw [below, leadOf, if_neg h, if_neg h]

/-- A directory whose path is `path`. -/
structure At (path : String) (dir : Directory) : Prop where
  path_ne : path ≠ ""
  wellFormed : WellFormed (leadOf path) dir

/-- The directory is on the way to `x`. -/
def Under (path x : String) : Prop := (path ++ "/").toList <+: x.toList

instance (path x : String) : Decidable (Under path x) :=
  inferInstanceAs (Decidable (List.IsPrefix _ _))

section At

variable {dirs : List (String × Directory)} {files : OrdMap (String ×ₗ String) String}
  {path parent n m x : String} {d c : String × Directory} {f : (String ×ₗ String) × String}

theorem leadOf_of_ne (h : path ≠ "") : leadOf path = path ++ "/" := if_neg h

theorem leadOf_below (h : leadOf parent ++ n ≠ "") :
    leadOf (below parent n) = leadOf parent ++ n ++ "/" := by
  rw [below_eq, leadOf_of_ne h]

theorem at_child (h : WellFormed (leadOf parent) (.mk dirs files)) (hd : d ∈ dirs) :
    At (below parent d.1) d.2 := by
  cases h with
  | mk sorted names children stored =>
    have hne := (names d hd).2
    exact ⟨by rwa [below_eq], by rw [leadOf_below hne]; exact children d hd⟩

theorem file_path (h : WellFormed (leadOf parent) (.mk dirs files)) (hf : f ∈ files.entries) :
    f.2 = leadOf parent ++ nameOf f := by
  cases h with
  | mk sorted names children stored => exact (stored f hf).2

theorem below_of_ne (h : path ≠ "") : below path n = path ++ "/" ++ n := if_neg h

theorem under_of_child (h : Under (path ++ "/" ++ n) x) : Under path x := by
  refine List.IsPrefix.trans ?_ h
  rw [@String.append_assoc (path ++ "/"), String.toList_append (s := path ++ "/")]
  exact List.prefix_append _ _

theorem under_append : Under path (path ++ "/" ++ x) := by
  rw [Under, String.toList_append (s := path ++ "/")]
  exact List.prefix_append _ _

/-- The names after the lead, up to the slash, are one. -/
theorem name_unique (hn : Under (below parent n) x) (hm : Under (below parent m) x)
    (hn' : '/' ∉ n.toList) (hm' : '/' ∉ m.toList) : n = m := by
  obtain ⟨r, hr⟩ := hn
  obtain ⟨s, hs⟩ := hm
  rw [below_eq, String.toList_append, String.toList_append, List.append_assoc, List.append_assoc]
    at hr hs
  have htail : n.toList ++ '/' :: r = m.toList ++ '/' :: s :=
    List.append_cancel_left (hr.trans hs.symm)
  have hsplit := congrArg (List.splitOn '/') htail
  rw [List.splitOn_append_cons_self_of_not_mem hn', List.splitOn_append_cons_self_of_not_mem hm']
    at hsplit
  exact String.toList_injective (List.cons.inj hsplit).1

theorem not_under_file (h : WellFormed (leadOf parent) (.mk dirs files)) (hf : f ∈ files.entries) :
    ¬ Under (below parent n) f.2 := by
  intro hunder
  cases h with
  | mk sorted names children stored =>
    obtain ⟨hslash, hpath⟩ := stored f hf
    obtain ⟨r, hr⟩ := hunder
    rw [hpath, below_eq, String.toList_append, String.toList_append, String.toList_append,
      List.append_assoc, List.append_assoc] at hr
    have hname := List.append_cancel_left hr
    refine hslash ?_
    rw [← hname]
    simp

theorem child_unique (h : WellFormed (leadOf parent) (.mk dirs files)) (hd : d ∈ dirs)
    (hc : c ∈ dirs) (hxd : Under (below parent d.1) x) (hxc : Under (below parent c.1) x) : d = c := by
  cases h with
  | mk sorted names children stored =>
    have hname := name_unique hxd hxc (names d hd).1 (names c hc).1
    have hnodup : (dirs.map Prod.fst).Nodup := List.pairwise_map.mpr (sorted.imp ne_of_lt)
    exact List.inj_on_of_nodup_map hnodup hd hc hname

end At

/-- **Induction on the directories of a tree**, by what becomes of each. -/
theorem outlineDir_induct
    {motive : String → String → Directory → Outline Folder Leaf → Prop}
    (chain : ∀ label path name child files o, files.entries = [] →
      motive (label ++ "/" ++ name) (path ++ "/" ++ name) child o →
      motive label path (.mk [(name, child)] files) o)
    (single : ∀ label path f files, files.entries = [f] → f.2 = path ++ "/" ++ nameOf f →
      motive label path (.mk [] files) (.leaf ⟨label ++ "/", f⟩ .nil))
    (plain : ∀ label path dirs files, At path (.mk dirs files) →
      (∀ d ∈ dirs, motive d.1 (below path d.1) d.2 (outlineDir d.1 (below path d.1) d.2)) →
      motive label path (.mk dirs files) (.folder ⟨label, path⟩ (items path (.mk dirs files)) .nil))
    (dir : Directory) :
    ∀ label path, At path dir → motive label path dir (outlineDir label path dir) := by
  induction dir using directory_induction with
  | h dirs files ih =>
    intro label path hat
    cases kind dirs files with
    | chain name child hdirs hfiles =>
      subst hdirs
      have hmem : (name, child) ∈ [(name, child)] := List.mem_singleton.mpr rfl
      have hchild := at_child hat.wellFormed hmem
      rw [below_of_ne hat.path_ne] at hchild
      rw [outlineDir_chain hfiles]
      exact chain label path name child files _ hfiles (ih (name, child) hmem _ _ hchild)
    | single f hdirs hfiles =>
      subst hdirs
      have hmem : f ∈ files.entries := by
        rw [hfiles]
        exact List.mem_singleton.mpr rfl
      have hpath := file_path hat.wellFormed hmem
      rw [leadOf_of_ne hat.path_ne] at hpath
      rw [outlineDir_single hfiles]
      exact single label path f files hfiles hpath
    | plain hrows houtline =>
      rw [houtline]
      exact plain label path dirs files hat fun d hd => ih d hd _ _ (at_child hat.wellFormed hd)

/-! ## What the folders of a row say -/

section Facts

variable {dirs : List (String × Directory)} {files : OrdMap (String ×ₗ String) String}
  {label path parent : String} {dir : Directory} {above : List Folder} {l : List Folder × Leaf}
  {d : Folder}

theorem under_items (h : At path (.mk dirs files))
    (ih : ∀ c ∈ dirs, ∀ l ∈ (outlineDir c.1 (below path c.1) c.2).leaves above,
      Under (below path c.1) l.2.file.2)
    (hl : l ∈ (items path (.mk dirs files)).leaves above) : Under path l.2.file.2 := by
  obtain ⟨c, hc, hl⟩ | ⟨f, hf, rfl⟩ := mem_leaves_items.mp hl
  · have hchild := ih c hc l hl
    rw [below_of_ne h.path_ne] at hchild
    exact under_of_child hchild
  · rw [file_path h.wellFormed hf, leadOf_of_ne h.path_ne]
    exact under_append

theorem under_leaf (h : At path dir) (hl : l ∈ (outlineDir label path dir).leaves above) :
    Under path l.2.file.2 := by
  refine outlineDir_induct (motive := fun _ path _ o => ∀ above, ∀ l ∈ o.leaves above,
    Under path l.2.file.2) ?chain ?single ?plain dir label path h above l hl
  case chain =>
    intro label path name child files o _ ih above l hl
    exact under_of_child (ih above l hl)
  case single =>
    intro label path f files _ hpath above l hl
    obtain rfl := List.mem_singleton.mp hl
    rw [hpath]
    exact under_append
  case plain =>
    intro label path dirs files hat ih above l hl
    rw [Outline.leaves, Outline.leaves, List.append_nil] at hl
    exact under_items hat (fun c hc => ih c hc _) hl

theorem under_folder (h : At path dir) (hd : d ∈ (outlineDir label path dir).folders) :
    Under path (d.path ++ "/") := by
  refine outlineDir_induct (motive := fun _ path _ o => ∀ d ∈ o.folders, Under path (d.path ++ "/"))
    ?chain ?single ?plain dir label path h d hd
  case chain =>
    intro label path name child files o _ ih d hd
    exact under_of_child (ih d hd)
  case single =>
    intro label path f files _ _ d hd
    cases hd
  case plain =>
    intro label path dirs files hat ih d hd
    rw [Outline.folders, Outline.folders, List.append_nil, folders_items] at hd
    rcases List.mem_cons.mp hd with rfl | hd
    · exact List.prefix_rfl
    · obtain ⟨c, hc, hd⟩ := List.mem_flatMap.mp hd
      have hchild := ih c hc d hd
      rw [below_of_ne hat.path_ne] at hchild
      exact under_of_child hchild

/-- The paths of the folders are different, as names are. -/
theorem nodup_items (h : WellFormed (leadOf parent) (.mk dirs files))
    (ih : ∀ c ∈ dirs, ((outlineDir c.1 (below parent c.1) c.2).folders.map Folder.path).Nodup) :
    ((items parent (.mk dirs files)).folders.map Folder.path).Nodup := by
  rw [folders_items, List.map_flatMap, List.nodup_flatMap]
  refine ⟨ih, ?_⟩
  have hsorted := h.sorted
  rw [List.pairwise_iff_forall_sublist] at hsorted ⊢
  intro a b hab p hpa hpb
  have ha : a ∈ dirs := hab.subset List.mem_cons_self
  have hb : b ∈ dirs := hab.subset (List.mem_cons_of_mem a List.mem_cons_self)
  obtain ⟨d, hd, rfl⟩ := List.mem_map.mp hpa
  obtain ⟨e, he, heq⟩ := List.mem_map.mp hpb
  have hunderA := under_folder (at_child h ha) hd
  have hunderB := under_folder (at_child h hb) he
  rw [heq] at hunderB
  obtain rfl := child_unique h ha hb hunderA hunderB
  exact lt_irrefl _ (hsorted hab)

theorem nodup_folders (h : At path dir) :
    ((outlineDir label path dir).folders.map Folder.path).Nodup := by
  refine outlineDir_induct (motive := fun _ _ _ o => (o.folders.map Folder.path).Nodup)
    ?chain ?single ?plain dir label path h
  case chain =>
    intro label path name child files o _ ih
    exact ih
  case single =>
    intro label path f files _ _
    exact .nil
  case plain =>
    intro label path dirs files hat ih
    rw [Outline.folders, Outline.folders, List.append_nil, List.map_cons, List.nodup_cons]
    refine ⟨?_, nodup_items hat.wellFormed ih⟩
    intro hmem
    obtain ⟨d, hd, heq⟩ := List.mem_map.mp hmem
    rw [folders_items] at hd
    obtain ⟨c, hc, hd⟩ := List.mem_flatMap.mp hd
    have hlength := (under_folder (at_child hat.wellFormed hc) hd).length_le
    rw [heq, below_of_ne hat.path_ne] at hlength
    simp only [String.toList_append, List.length_append] at hlength
    have hslash : "/".toList.length = 1 := rfl
    omega

/-- A folder on the way to a leaf has it. -/
theorem mem_items_of_under (h : WellFormed (leadOf parent) (.mk dirs files))
    (ih : ∀ c ∈ dirs, ∀ l ∈ (outlineDir c.1 (below parent c.1) c.2).leaves above,
      ∀ d ∈ (outlineDir c.1 (below parent c.1) c.2).folders, Under d.path l.2.file.2 → d ∈ l.1)
    (hl : l ∈ (items parent (.mk dirs files)).leaves above)
    (hd : d ∈ (items parent (.mk dirs files)).folders) (hunder : Under d.path l.2.file.2) :
    d ∈ l.1 := by
  rw [folders_items] at hd
  obtain ⟨c, hc, hd⟩ := List.mem_flatMap.mp hd
  have hway : Under (below parent c.1) l.2.file.2 := (under_folder (at_child h hc) hd).trans hunder
  obtain ⟨c', hc', hl⟩ | ⟨f, hf, rfl⟩ := mem_leaves_items.mp hl
  · obtain rfl := child_unique h hc hc' hway (under_leaf (at_child h hc') hl)
    exact ih c hc l hl d hd hunder
  · exact absurd hway (not_under_file h hf)

theorem mem_of_under (h : At path dir) (hl : l ∈ (outlineDir label path dir).leaves above)
    (hd : d ∈ (outlineDir label path dir).folders) (hunder : Under d.path l.2.file.2) :
    d ∈ l.1 := by
  refine outlineDir_induct (motive := fun _ _ _ o => ∀ above, ∀ l ∈ o.leaves above, ∀ d ∈ o.folders,
    Under d.path l.2.file.2 → d ∈ l.1) ?chain ?single ?plain dir label path h above l hl d hd hunder
  case chain =>
    intro label path name child files o _ ih
    exact ih
  case single =>
    intro label path f files _ _ above l _ d hd
    cases hd
  case plain =>
    intro label path dirs files hat ih above l hl d hd hunder
    rw [Outline.leaves, Outline.leaves, List.append_nil] at hl
    rw [Outline.folders, Outline.folders, List.append_nil] at hd
    rcases List.mem_cons.mp hd with rfl | hd
    · exact (Outline.leaves_above hl).subset (by simp)
    · exact mem_items_of_under hat.wellFormed (fun c hc => ih c hc _) hl hd hunder

/-- The folders of a leaf are on the way to it. -/
theorem under_of_mem (h : At path dir) (hl : l ∈ (outlineDir label path dir).leaves above)
    (hd : d ∈ l.1) : d ∈ above ∨ Under d.path l.2.file.2 := by
  refine outlineDir_induct (motive := fun _ _ _ o => ∀ above, ∀ l ∈ o.leaves above, ∀ d ∈ l.1,
    d ∈ above ∨ Under d.path l.2.file.2) ?chain ?single ?plain dir label path h above l hl d hd
  case chain =>
    intro label path name child files o _ ih
    exact ih
  case single =>
    intro label path f files _ _ above l hl d hd
    obtain rfl := List.mem_singleton.mp hl
    exact .inl hd
  case plain =>
    intro label path dirs files hat ih above l hl d hd
    rw [Outline.leaves, Outline.leaves, List.append_nil] at hl
    have hself := under_items hat (fun c hc l hl => under_leaf (at_child hat.wellFormed hc) hl) hl
    have hcases : d ∈ above ++ [⟨label, path⟩] ∨ Under d.path l.2.file.2 := by
      obtain ⟨c, hc, hl⟩ | ⟨f, hf, rfl⟩ := mem_leaves_items.mp hl
      · exact ih c hc _ l hl d hd
      · exact .inl hd
    rcases hcases with hmem | hunder
    · rcases List.mem_append.mp hmem with hmem | hmem
      · exact .inl hmem
      · obtain rfl := List.mem_singleton.mp hmem
        exact .inr hself
    · exact .inr hunder

/-- The labels of the folders, each with a slash. -/
def spelled : List Folder → String
  | [] => ""
  | d :: ds => d.label ++ "/" ++ spelled ds

theorem spelled_concat (ds : List Folder) (d : Folder) :
    spelled (ds ++ [d]) = spelled ds ++ d.label ++ "/" := by
  induction ds with
  | nil => simp [spelled]
  | cons x ds ih => simp only [List.cons_append, spelled, ih, String.append_assoc]

/-- What a leaf shows is its path. -/
def Spells (l : List Folder × Leaf) : Prop :=
  l.2.file.2 = spelled l.1 ++ l.2.pathPrefix ++ nameOf l.2.file

theorem items_spelled (h : WellFormed (leadOf parent) (.mk dirs files))
    (ih : ∀ c ∈ dirs, below parent c.1 = spelled above ++ c.1 →
      ∀ l ∈ (outlineDir c.1 (below parent c.1) c.2).leaves above, Spells l)
    (habove : leadOf parent = spelled above)
    (hl : l ∈ (items parent (.mk dirs files)).leaves above) : Spells l := by
  obtain ⟨c, hc, hl⟩ | ⟨f, hf, rfl⟩ := mem_leaves_items.mp hl
  · exact ih c hc (by rw [below_eq, habove]) l hl
  · rw [Spells, file_path h hf, habove, String.append_empty]

theorem leaf_spelled (h : At path dir) (habove : path = spelled above ++ label)
    (hl : l ∈ (outlineDir label path dir).leaves above) : Spells l := by
  refine outlineDir_induct (motive := fun label path _ o => ∀ above, path = spelled above ++ label →
    ∀ l ∈ o.leaves above, Spells l) ?chain ?single ?plain dir label path h above habove l hl
  case chain =>
    intro label path name child files o _ ih above habove
    exact ih above (by rw [habove]; simp only [String.append_assoc])
  case single =>
    intro label path f files _ hpath above habove l hl
    obtain rfl := List.mem_singleton.mp hl
    rw [Spells, hpath, habove]
    simp only [String.append_assoc]
  case plain =>
    intro label path dirs files hat ih above habove l hl
    rw [Outline.leaves, Outline.leaves, List.append_nil] at hl
    refine items_spelled hat.wellFormed (fun c hc => ih c hc _) ?_ hl
    rw [leadOf_of_ne hat.path_ne, spelled_concat, ← habove]

theorem items_entries (ih : ∀ c ∈ dirs, ∀ above : List Folder,
      ((outlineDir c.1 (below parent c.1) c.2).leaves above).map (fun l => entryOf l.2.file) =
        listing c.2) :
    ((items parent (.mk dirs files)).leaves above).map (fun l => entryOf l.2.file) =
      listing (.mk dirs files) := by
  rw [items, Outline.leaves_append, List.map_append, listing_mk, Outline.leaves_ofLeaves,
    List.map_map, List.map_map]
  refine congrArg₂ (· ++ ·) ?_ rfl
  have hdirs := @leaves_outlineDirs dirs parent above
  rw [Directory.dirs, hdirs, List.map_flatMap]
  exact List.flatMap_congr fun c hc => ih c hc above

/-- The leaves are the files. -/
theorem leaf_entries (h : At path dir) :
    ((outlineDir label path dir).leaves above).map (fun l => entryOf l.2.file) = listing dir := by
  refine outlineDir_induct (motive := fun _ _ dir o => ∀ above : List Folder,
    (o.leaves above).map (fun l => entryOf l.2.file) = listing dir) ?chain ?single ?plain dir label
      path h above
  case chain =>
    intro label path name child files o hfiles ih above
    rw [ih above, listing_mk, hfiles]
    simp
  case single =>
    intro label path f files hfiles _ above
    rw [listing_mk, hfiles]
    rfl
  case plain =>
    intro label path dirs files hat ih above
    rw [Outline.leaves, Outline.leaves, List.append_nil]
    exact items_entries ih

end Facts

end FileTree
end Proof
end Diffz
