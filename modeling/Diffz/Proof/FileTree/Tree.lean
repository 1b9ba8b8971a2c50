import Diffz.Core.FileTree

/-!
# The directories of the files

The names are split at slashes and put in one after the other, so that a file is where its path says
(`WellFormed`) and none is lost: the files of the tree are those that went in (`root_listing`). That
names without a slash spell a path in one way only is what tells the directories apart.
-/

set_option autoImplicit false

namespace Diffz
namespace Proof
namespace FileTree

open Diffz.FileTree

/-- Induction on a directory, with the claim for each of its own. -/
theorem directory_induction {motive : Directory → Prop}
    (h : ∀ dirs files, (∀ d ∈ dirs, motive d.2) → motive (.mk dirs files)) (dir : Directory) :
    motive dir := by
  refine @Directory.rec motive (fun dirs => ∀ d ∈ dirs, motive d.2) (fun d => motive d.2) h ?_ ?_
    ?_ dir
  · intro d hd
    cases hd
  · intro d dirs hd hdirs x hx
    rcases List.mem_cons.mp hx with rfl | hx
    · exact hd
    · exact hdirs x hx
  · intro name child hchild
    exact hchild

/-! ## The files of a directory -/

def nameOf (f : (String ×ₗ String) × String) : String := (ofLex f.1).1

def entryOf (f : (String ×ₗ String) × String) : FileId × String := (⟨(ofLex f.1).2⟩, f.2)

mutual

def listing : Directory → List (FileId × String)
  | .mk dirs files => listingDirs dirs ++ files.entries.map entryOf

def listingDirs : List (String × Directory) → List (FileId × String)
  | [] => []
  | d :: dirs => listingEntry d ++ listingDirs dirs

def listingEntry : String × Directory → List (FileId × String)
  | (_, child) => listing child

end

theorem listing_mk (dirs : List (String × Directory)) (files : OrdMap (String ×ₗ String) String) :
    listing (.mk dirs files) =
      dirs.flatMap (fun d => listing d.2) ++ files.entries.map entryOf := by
  have h : ∀ dirs : List (String × Directory),
      listingDirs dirs = dirs.flatMap fun d => listing d.2 := by
    intro dirs
    induction dirs with
    | nil => rfl
    | cons d dirs ih =>
      obtain ⟨name, child⟩ := d
      rw [listingDirs, listingEntry, ih]
      rfl
  rw [listing, h]

/-- Every directory and every file of `dir` has its path, where that of `dir` is `lead`. -/
inductive WellFormed : String → Directory → Prop
  | mk {lead : String} {dirs : List (String × Directory)}
      {files : OrdMap (String ×ₗ String) String}
      (sorted : dirs.Pairwise fun a b => a.1 < b.1)
      (names : ∀ d ∈ dirs, '/' ∉ d.1.toList ∧ lead ++ d.1 ≠ "")
      (children : ∀ d ∈ dirs, WellFormed (lead ++ d.1 ++ "/") d.2)
      (stored : ∀ f ∈ files.entries, '/' ∉ (nameOf f).toList ∧ f.2 = lead ++ nameOf f) :
      WellFormed lead (.mk dirs files)

theorem wellFormed_empty (lead : String) : WellFormed lead .empty := by
  refine .mk .nil ?_ ?_ ?_
  · intro d hd
    cases hd
  · intro d hd
    cases hd
  · intro f hf
    cases hf

theorem WellFormed.sorted {lead : String} {dirs : List (String × Directory)}
    {files : OrdMap (String ×ₗ String) String} (h : WellFormed lead (.mk dirs files)) :
    dirs.Pairwise fun a b => a.1 < b.1 := by
  cases h
  assumption

theorem WellFormed.lookup {lead : String} {dirs : List (String × Directory)}
    {files : OrdMap (String ×ₗ String) String} (h : WellFormed lead (.mk dirs files))
    (name : String) : WellFormed (lead ++ name ++ "/") ((dirs.lookup name).getD .empty) := by
  cases hchild : dirs.lookup name with
  | none => exact wellFormed_empty _
  | some child =>
    cases h with
    | mk sorted names children files =>
      have hmem := List.lookup_eq_some_iff.mp hchild
      obtain ⟨a, b, hdirs, -⟩ := hmem
      exact children (name, child) (by rw [hdirs]; simp)

/-! ## Inserting a path -/

section Insert

variable {id : FileId} {path lead : String} {dir : Directory} {names : List String}

theorem insert_cons {name : String} (h : names ≠ []) :
    dir.insert id path (name :: names) =
      .mk (OrdMap.insertEntry name
        (Directory.insert id path names ((dir.dirs.lookup name).getD .empty)) dir.dirs)
        dir.files := by
  cases names with
  | nil => exact absurd rfl h
  | cons next rest => rfl

theorem insert_wellFormed (hne : names ≠ []) (hnames : ∀ s ∈ names, '/' ∉ s.toList)
    (hpath : lead ++ "/".intercalate names = path) (hstart : path.toList.head? ≠ some '/')
    (h : WellFormed lead dir) : WellFormed lead (dir.insert id path names) := by
  induction names generalizing lead dir with
  | nil => exact absurd rfl hne
  | cons name rest ih =>
    have hname := hnames name List.mem_cons_self
    obtain ⟨dirs, files⟩ := dir
    have hchild := h.lookup name
    cases h with
    | mk sorted names children hfiles =>
      by_cases hrest : rest = []
      · subst hrest
        refine .mk sorted names children ?_
        intro f hf
        rcases OrdMap.mem_insert hf with rfl | hf
        · exact ⟨hname, by rw [← hpath, String.intercalate_singleton]; rfl⟩
        · exact hfiles f hf
      · rw [String.intercalate_cons_of_ne_nil hrest] at hpath
        have hsub : lead ++ name ++ "/" ++ "/".intercalate rest = path := by
          rw [← hpath]
          simp only [String.append_assoc]
        have hlead : lead ++ name ≠ "" := by
          intro heq
          rw [heq] at hsub
          exact hstart (by rw [← hsub]; simp)
        have hentry := ih hrest (fun s hs => hnames s (List.mem_cons_of_mem name hs)) hsub hchild
        rw [insert_cons hrest]
        refine .mk (OrdMap.sorted_insertEntry sorted) ?_ ?_ hfiles
        · intro d hd
          rcases OrdMap.mem_insertEntry hd with rfl | hd
          · exact ⟨hname, hlead⟩
          · exact names d hd
        · intro d hd
          rcases OrdMap.mem_insertEntry hd with rfl | hd
          · exact hentry
          · exact children d hd

/-- **A file with a new identity is added to the files there are.** -/
theorem insert_listing (hne : names ≠ []) (h : WellFormed lead dir)
    (hnew : id ∉ (listing dir).map Prod.fst) :
    (listing (dir.insert id path names)).Perm ((id, path) :: listing dir) := by
  induction names generalizing lead dir with
  | nil => exact absurd rfl hne
  | cons name rest ih =>
    obtain ⟨dirs, files⟩ := dir
    rw [listing_mk, List.map_append, List.mem_append, not_or] at hnew
    obtain ⟨hdirs, hfiles⟩ := hnew
    by_cases hrest : rest = []
    · subst hrest
      obtain ⟨a, b, hl, hinsert⟩ := OrdMap.insertEntry_split path (k := toLex (name, id.val))
        files.sorted
      have hnone : files.entries.lookup (toLex (name, id.val)) = none := by
        rw [Option.eq_none_iff_forall_ne_some]
        intro w hw
        have hmem : (toLex (name, id.val), w) ∈ files.entries := by
          rw [hl, hw]
          simp
        exact hfiles (List.mem_map.mpr ⟨(id, w), List.mem_map.mpr ⟨_, hmem, rfl⟩, rfl⟩)
      rw [hnone] at hl
      have hentries : (files.insert (toLex (name, id.val)) path).entries =
          a ++ (toLex (name, id.val), path) :: b := hinsert
      have hdef : Directory.insert id path [name] (.mk dirs files) =
          .mk dirs (files.insert (toLex (name, id.val)) path) := rfl
      rw [hdef, listing_mk, listing_mk, hentries, hl]
      have hmid : (dirs.flatMap (fun d => listing d.2) ++ a.map entryOf ++
          (id, path) :: b.map entryOf).Perm
            ((id, path) :: (dirs.flatMap (fun d => listing d.2) ++ a.map entryOf ++ b.map entryOf)) :=
        List.perm_middle
      simpa [entryOf] using hmid
    · obtain ⟨a, b, hl, hinsert⟩ := OrdMap.insertEntry_split
        (Directory.insert id path rest ((dirs.lookup name).getD .empty)) (k := name) h.sorted
      have hold : dirs.flatMap (fun d => listing d.2) = a.flatMap (fun d => listing d.2) ++
          (listing ((dirs.lookup name).getD .empty) ++ b.flatMap fun d => listing d.2) := by
        nth_rewrite 1 [hl]
        rw [List.flatMap_append, List.flatMap_append, List.append_assoc]
        cases dirs.lookup name with
        | none => rfl
        | some child => simp
      have hdef : Directory.insert id path (name :: rest) (.mk dirs files) =
          .mk (a ++ (name, Directory.insert id path rest ((dirs.lookup name).getD .empty)) :: b)
            files := by
        rw [insert_cons hrest]
        exact congrArg (Directory.mk · files) hinsert
      have hchild : id ∉ (listing ((dirs.lookup name).getD .empty)).map Prod.fst := by
        rw [hold] at hdirs
        simp only [List.map_append, List.mem_append, not_or] at hdirs
        exact hdirs.2.1
      rw [hdef, listing_mk, listing_mk, hold, List.flatMap_append, List.flatMap_cons]
      have hsub := (ih hrest (h.lookup name) hchild).append_right
        (b.flatMap (fun d => listing d.2) ++ files.entries.map entryOf)
      rw [List.cons_append] at hsub
      have hmid := (hsub.append_left (a.flatMap fun d => listing d.2)).trans List.perm_middle
      simpa only [List.append_assoc, List.cons_append] using hmid

end Insert

/-! ## The tree of the entries -/

theorem not_mem_of_mem_splitOn {x : Char} {p l : List Char} (h : p ∈ l.splitOn x) : x ∉ p := by
  induction l generalizing p with
  | nil =>
    rw [List.splitOn_nil, List.mem_singleton] at h
    rw [h]
    exact List.not_mem_nil
  | cons c l ih =>
    rw [List.splitOn_cons_eq_if_modifyHead] at h
    split at h
    · rcases List.mem_cons.mp h with rfl | h
      · exact List.not_mem_nil
      · exact ih h
    · rename_i hc
      cases hparts : l.splitOn x with
      | nil => exact absurd hparts (List.splitOn_ne_nil x l)
      | cons q rest =>
        rw [hparts] at h ih
        rcases List.mem_cons.mp h with rfl | h
        · intro hx
          rcases List.mem_cons.mp hx with rfl | hx
          · exact hc (beq_self_eq_true x)
          · exact ih List.mem_cons_self hx
        · exact ih (List.mem_cons_of_mem q h)

theorem parts_ne_nil (path : String) : parts path ≠ [] := by
  rw [parts, Ne, List.map_eq_nil_iff]
  exact List.splitOn_ne_nil _ _

theorem slash_not_mem_parts {path s : String} (h : s ∈ parts path) : '/' ∉ s.toList := by
  obtain ⟨p, hp, rfl⟩ := List.mem_map.mp h
  rw [String.toList_ofList]
  exact not_mem_of_mem_splitOn hp

theorem intercalate_parts (path : String) : "/".intercalate (parts path) = path := by
  apply String.toList_injective
  rw [String.toList_intercalate, parts, List.map_map]
  have hid : String.toList ∘ String.ofList = id := by
    funext l
    exact String.toList_ofList
  rw [hid, List.map_id]
  exact List.intercalate_splitOn '/'

/-- No path begins with a slash, which `RepoPath::new` sees to. -/
def Relative (entries : List (FileId × String)) : Prop :=
  ∀ e ∈ entries, e.2.toList.head? ≠ some '/'

/-- The loop over the entries, of which `p` keeps some. -/
theorem foldl_insert {p : FileId × String → Bool} {entries : List (FileId × String)}
    {dir : Directory} (hids : ((listing dir ++ entries).map Prod.fst).Nodup)
    (hpaths : Relative entries) (h : WellFormed "" dir) :
    let root := entries.foldl (fun root e =>
      if p e then Directory.insert e.1 e.2 (parts e.2) root else root) dir
    WellFormed "" root ∧ (listing root).Perm (listing dir ++ entries.filter p) := by
  induction entries generalizing dir with
  | nil => exact ⟨h, by simp⟩
  | cons e entries ih =>
    have hrest : Relative entries := fun x hx => hpaths x (List.mem_cons_of_mem e hx)
    simp only [List.map_append, List.map_cons] at hids
    by_cases hp : p e
    · have hnew : e.1 ∉ (listing dir).map Prod.fst := by
        intro hmem
        exact (List.nodup_append.mp hids).2.2 e.1 hmem e.1 List.mem_cons_self rfl
      have hinsert : (listing (dir.insert e.1 e.2 (parts e.2))).Perm ((e.1, e.2) :: listing dir) :=
        insert_listing (parts_ne_nil e.2) h hnew
      have hwf : WellFormed "" (dir.insert e.1 e.2 (parts e.2)) :=
        insert_wellFormed (parts_ne_nil e.2) (fun s hs => slash_not_mem_parts hs)
          (by rw [intercalate_parts, String.empty_append]) (hpaths e List.mem_cons_self) h
      have hids' : ((listing (dir.insert e.1 e.2 (parts e.2)) ++ entries).map Prod.fst).Nodup := by
        rw [List.map_append, ((hinsert.map Prod.fst).append_right _).nodup_iff]
        exact List.perm_middle.nodup_iff.mp hids
      obtain ⟨hroot, hperm⟩ := ih hids' hrest hwf
      simp only [List.foldl_cons, if_pos hp, List.filter_cons_of_pos hp]
      refine ⟨hroot, hperm.trans ?_⟩
      exact (hinsert.append_right _).trans List.perm_middle.symm
    · have hids' : ((listing dir ++ entries).map Prod.fst).Nodup := by
        rw [List.map_append]
        exact hids.sublist ((List.sublist_cons_self _ _).append_left _)
      simp only [List.foldl_cons, if_neg hp, List.filter_cons_of_neg hp]
      exact ih hids' hrest h

section Root

variable {lower : String → String} {t : FileTree} {query : String}

/-- **The tree has the matching entries**, each where its path says. -/
theorem root_listing (hids : (t.entries.map Prod.fst).Nodup) (hpaths : Relative t.entries) :
    WellFormed "" (t.root lower query) ∧
      (listing (t.root lower query)).Perm (t.entries.filter (t.matchesQuery lower query)) :=
  foldl_insert hids hpaths (wellFormed_empty "")

end Root

end FileTree
end Proof
end Diffz
