import Diffz.Core.Releases

/-!
# Files through renames

All files of a release are renamed at once: their paths are names after the release, their previous
names are names before it. `reference` reads them so. `releasesByPath` adds the names of a release
one by one to the map it reads the paths with, so a path that another file of the release was
renamed from may be read as that file's.
-/

set_option autoImplicit false

namespace Diffz
namespace Proof
namespace Releases

/-! ## The reference -/

/-- The names before a release of these files, where `after` has the head names after it. -/
def before (after : String → String) (files : List ReleaseFile) (name : String) : String :=
  ((files.find? fun f => f.previous = some name).map fun f => after f.path).getD (after name)

/-- The head names of the names before the first of these releases. -/
def headName : List Release → String → String
  | [] => id
  | r :: newer => before (headName newer) r.files

/-- The release `i` lists a file of this head path. -/
def touches (releases : List Release) (path : String) (i : Nat) : Bool :=
  (releases[i]?).any fun r => r.files.any fun f => headName (releases.drop (i + 1)) f.path = path

/-- The releases that touched a path, oldest first. -/
def touching (releases : List Release) (path : String) : List Nat :=
  (List.range releases.length).filter (touches releases path)

/-- The entry of a path: there is one where a release touched it. -/
def reference (releases : List Release) (path : String) : Option (List Nat) :=
  if touching releases path = [] then none else some (touching releases path)

/-! ## Conditions -/

/-- No two files of a release were renamed from one name. -/
def PreviousDistinct (releases : List Release) : Prop :=
  ∀ r ∈ releases, (r.files.filterMap ReleaseFile.previous).Nodup

/-- A name that a file of a release was renamed from is used again in that release only for the same
file of the head. -/
def NamesApart : List Release → Prop
  | [] => True
  | r :: newer => NamesApart newer ∧ ∀ f ∈ r.files, ∀ g ∈ r.files, g.previous = some f.path →
      headName newer g.path = headName newer f.path

/-- No two files of a release have one head path. -/
def HeadsApart : List Release → Prop
  | [] => True
  | r :: newer => HeadsApart newer ∧ ∀ f ∈ r.files, ∀ g ∈ r.files,
      headName newer f.path = headName newer g.path → f = g

/-- The same releases, the files of each in some order. -/
def Reordered : List Release → List Release → Prop :=
  List.Forall₂ fun r r' => ∃ files, files.Perm r.files ∧ r' = { r with files }

/-- **The claim of `releases_by_path`.** It is the reference, and the order in which a release lists
its files does not matter. -/
def Follows (releases : List Release) : Prop :=
  (∀ path, (releasesByPath releases).find path = reference releases path) ∧
    ∀ releases', Reordered releases releases' →
      ∀ path, (releasesByPath releases').find path = (releasesByPath releases).find path

/-! ## One file -/

open Followed

variable {s : Followed} {f g : ReleaseFile} {fs : List ReleaseFile} {i j k : Nat}
  {after : String → String} {path name : String}

/-- The releases found for a path. -/
def found (s : Followed) (path : String) : List Nat := (s.paths.find path).getD []

theorem found_file : found (s.file i f) path =
    if path = s.head f.path then found s path ++ [i] else found s path := by
  rw [found, Followed.file, Table.find_put]
  split
  · rename_i h
    rw [h]
    rfl
  · rfl

theorem mem_found_file : j ∈ found (s.file i f) path ↔
    j ∈ found s path ∨ j = i ∧ s.head f.path = path := by
  rw [found_file]
  split
  · rename_i h
    simp [h]
  · rename_i h
    simp [Ne.symm h]

theorem head_file (s : Followed) (i : Nat) (f : ReleaseFile) (name : String) :
    (s.file i f).head name = if f.previous = some name then s.head f.path else s.head name := by
  cases hp : f.previous with
  | none => simp [Followed.head, Followed.file, hp]
  | some previous =>
    simp only [Followed.head, Followed.file, hp, Table.find_put, Option.some.injEq]
    by_cases h : name = previous
    · simp [h]
    · simp [h, Ne.symm h]

/-! ## One release -/

/-- The other files are read with the same names where these are apart. -/
theorem head_file_reads (hread : ∀ x ∈ f :: fs, s.head x.path = after x.path)
    (hapart : ∀ x ∈ f :: fs, ∀ y ∈ f :: fs, y.previous = some x.path →
      after y.path = after x.path) :
    ∀ x ∈ fs, (s.file i f).head x.path = after x.path := by
  intro x hx
  rw [head_file, hread f List.mem_cons_self]
  split
  · rename_i hp
    exact hapart x (List.mem_cons_of_mem f hx) f List.mem_cons_self hp
  · exact hread x (List.mem_cons_of_mem f hx)

/-- The names before a release, of which the last entry of a name counts. -/
theorem head_files (hread : ∀ f ∈ fs, s.head f.path = after f.path)
    (hapart : ∀ f ∈ fs, ∀ g ∈ fs, g.previous = some f.path → after g.path = after f.path) :
    (fs.foldl (Followed.file i) s).head name =
      ((fs.reverse.find? fun f => f.previous = some name).map fun f => after f.path).getD
        (s.head name) := by
  induction fs generalizing s with
  | nil => rfl
  | cons f fs ih =>
    rw [List.foldl_cons, ih (head_file_reads hread hapart), List.reverse_cons, List.find?_append,
      head_file, hread f List.mem_cons_self]
    · cases fs.reverse.find? fun f => decide (f.previous = some name) with
      | some g => rfl
      | none =>
        by_cases hp : f.previous = some name
        · simp [hp]
        · simp [hp]
    · exact fun x hx y hy => hapart x (List.mem_cons_of_mem f hx) y (List.mem_cons_of_mem f hy)

theorem found_files (hread : ∀ f ∈ fs, s.head f.path = after f.path)
    (hapart : ∀ f ∈ fs, ∀ g ∈ fs, g.previous = some f.path → after g.path = after f.path) :
    j ∈ found (fs.foldl (Followed.file i) s) path ↔
      j ∈ found s path ∨ j = i ∧ ∃ f ∈ fs, after f.path = path := by
  induction fs generalizing s with
  | nil => simp
  | cons f fs ih =>
    rw [List.foldl_cons, ih (head_file_reads hread hapart), mem_found_file,
      hread f List.mem_cons_self]
    · simp only [List.mem_cons, exists_eq_or_imp, and_or_left, or_assoc]
    · exact fun x hx y hy => hapart x (List.mem_cons_of_mem f hx) y (List.mem_cons_of_mem f hy)

/-- Releases of other indexes stay as they are. -/
theorem found_files_of_ne (h : j ≠ i) :
    j ∈ found (fs.foldl (Followed.file i) s) path ↔ j ∈ found s path := by
  induction fs generalizing s with
  | nil => rfl
  | cons f fs ih =>
    rw [List.foldl_cons, ih, mem_found_file]
    simp [h]

/-- A path that no file is read as is not found. -/
theorem not_found_files (h : ∀ f ∈ fs, s.head f.path ≠ path) (hi : i ∉ found s path) :
    i ∉ found (fs.foldl (Followed.file i) s) path := by
  induction fs generalizing s with
  | nil => exact hi
  | cons f fs ih =>
    have hf := h f List.mem_cons_self
    refine ih ?_ ?_
    · intro x hx
      rw [head_file]
      split
      · exact hf
      · exact h x (List.mem_cons_of_mem f hx)
    · rw [mem_found_file]
      simp [hi, hf]

/-- What is found first in a list is found first in any order of it, where nothing else can be. -/
theorem find?_perm {α : Type} {p : α → Bool} {l l' : List α} (hl : l'.Perm l)
    (h : ∀ a ∈ l, ∀ b ∈ l, p a → p b → a = b) : l'.find? p = l.find? p := by
  cases hfind : l.find? p with
  | none =>
    rw [List.find?_eq_none] at hfind ⊢
    exact fun a ha => hfind a (hl.mem_iff.mp ha)
  | some a =>
    have hp := List.find?_some hfind
    have ha := List.mem_of_find?_eq_some hfind
    obtain ⟨b, hb⟩ := Option.isSome_iff_exists.mp
      (List.find?_isSome.mpr ⟨a, hl.mem_iff.mpr ha, hp⟩)
    rw [hb, h a ha b (hl.mem_iff.mp (List.mem_of_find?_eq_some hb)) hp (List.find?_some hb)]

theorem previous_unique (h : (fs.filterMap ReleaseFile.previous).Nodup) :
    ∀ f ∈ fs, ∀ g ∈ fs, f.previous = some name → g.previous = some name → f = g := by
  rw [List.Nodup, List.pairwise_filterMap] at h
  intro f hf g hg hfn hgn
  by_contra hne
  have hsymm : Std.Symm fun a b : ReleaseFile => ∀ x, a.previous = some x →
      ∀ y, b.previous = some y → x ≠ y :=
    ⟨fun a b hab x hx y hy hxy => hab y hy x hx hxy.symm⟩
  exact h.forall hf hg hne name hfn name hgn rfl

theorem head_release {r : Release} {files : List ReleaseFile} (hperm : files.Perm r.files)
    (hprev : (r.files.filterMap ReleaseFile.previous).Nodup)
    (hread : ∀ name, s.head name = after name)
    (hapart : ∀ f ∈ r.files, ∀ g ∈ r.files, g.previous = some f.path →
      after g.path = after f.path) :
    (s.release i { r with files }).head name = before after r.files name := by
  have hunique : ∀ f ∈ r.files, ∀ g ∈ r.files, decide (f.previous = some name) = true →
      decide (g.previous = some name) = true → f = g := by
    simpa using previous_unique hprev
  rw [Followed.release, head_files (fun f _ => hread f.path) fun f hf g hg =>
    hapart f (hperm.mem_iff.mp hf) g (hperm.mem_iff.mp hg), before,
    find?_perm (files.reverse_perm.trans hperm) hunique, hread]

theorem found_release {r : Release} {files : List ReleaseFile} (hperm : files.Perm r.files)
    (hread : ∀ name, s.head name = after name)
    (hapart : ∀ f ∈ r.files, ∀ g ∈ r.files, g.previous = some f.path →
      after g.path = after f.path) :
    j ∈ found (s.release i { r with files }) path ↔
      j ∈ found s path ∨ j = i ∧ ∃ f ∈ r.files, after f.path = path := by
  rw [Followed.release, found_files (fun f _ => hread f.path) fun f hf g hg =>
    hapart f (hperm.mem_iff.mp hf) g (hperm.mem_iff.mp hg)]
  simp only [hperm.mem_iff]

/-! ## All releases -/

variable {r : Release} {newer releases releases' : List Release}

theorem followed_cons (k : Nat) (r : Release) (newer : List Release) :
    followed k (r :: newer) = (followed (k + 1) newer).release k r := rfl

theorem touches_zero : touches (r :: newer) path 0 ↔ ∃ f ∈ r.files, headName newer f.path = path := by
  simp [touches]

theorem touches_succ : touches (r :: newer) path (i + 1) = touches newer path i := by
  simp [touches]

/-- **Names are followed, whatever the order**, where those of a release are apart. -/
theorem followed_spec (h : Reordered releases releases') (hprev : PreviousDistinct releases)
    (hapart : NamesApart releases) :
    (∀ name, (followed k releases').head name = headName releases name) ∧
      ∀ path j, j ∈ found (followed k releases') path ↔ k ≤ j ∧ touches releases path (j - k) := by
  induction h generalizing k with
  | nil => exact ⟨fun _ => rfl, fun _ _ => by simp [touches, followed, start, found]⟩
  | cons hr _ ih =>
    obtain ⟨files, hperm, rfl⟩ := hr
    obtain ⟨hhead, hfound⟩ := ih (k := k + 1)
      (fun x hx => hprev x (List.mem_cons_of_mem _ hx)) hapart.1
    have hprev := hprev _ List.mem_cons_self
    refine ⟨fun name => ?_, fun path j => ?_⟩
    · rw [followed_cons]
      exact head_release hperm hprev hhead hapart.2
    · rw [followed_cons, found_release hperm hhead hapart.2, hfound]
      rcases Nat.lt_trichotomy j k with hlt | rfl | hlt
      · have hge : ¬ k ≤ j := by omega
        have hge' : ¬ k + 1 ≤ j := by omega
        simp [hge, hge', hlt.ne]
      · rw [Nat.sub_self, touches_zero]
        simp
      · obtain ⟨m, rfl⟩ := Nat.exists_eq_add_of_lt hlt
        have hsub : k + m + 1 - k = m + 1 := by omega
        have hsub' : k + m + 1 - (k + 1) = m := by omega
        have hne : k + m + 1 ≠ k := by omega
        rw [hsub, hsub', touches_succ]
        simp [hne]
        omega

/-! ## The result -/

/-- Every path that is found has a release. -/
def Filled (s : Followed) : Prop := ∀ path, s.paths.find path ≠ some []

theorem filled_files (h : Filled s) : Filled (fs.foldl (Followed.file i) s) := by
  induction fs generalizing s with
  | nil => exact h
  | cons f fs ih =>
    refine ih fun path => ?_
    rw [Followed.file, Table.find_put]
    split
    · simp
    · exact h path

theorem filled_followed : Filled (followed k releases) := by
  induction releases generalizing k with
  | nil => exact fun path => by simp [followed, start]
  | cons r newer ih =>
    rw [followed_cons]
    exact filled_files ih

theorem ascending_eq (l : List Nat) : ascending l = l.mergeSort.dedup :=
  (List.pairwise_mergeSort' (· ≤ ·) l).destutter_eq_dedup

/-- Increasing lists of the same numbers are the same. -/
theorem ascending_eq_of_mem {l m : List Nat} (hm : m.Pairwise (· < ·))
    (h : ∀ j, j ∈ l ↔ j ∈ m) : ascending l = m := by
  have hsorted : (ascending l).Pairwise (· ≤ ·) := by
    rw [ascending_eq]
    exact (List.pairwise_mergeSort' (· ≤ ·) l).sublist (List.dedup_sublist _)
  have hperm : (ascending l).Perm m := by
    rw [ascending_eq, List.perm_ext_iff_of_nodup (List.nodup_dedup _) (hm.imp Nat.ne_of_lt)]
    intro j
    rw [List.mem_dedup, List.mem_mergeSort, h]
  exact hperm.eq_of_pairwise' hsorted (hm.imp Nat.le_of_lt)

theorem mem_touching : j ∈ touching releases path ↔ touches releases path j := by
  rw [touching, List.mem_filter, List.mem_range, and_iff_right_iff_imp]
  intro h
  obtain ⟨r, hr, -⟩ := (Option.any_eq_true _ _).mp h
  exact (List.getElem?_eq_some_iff.mp hr).1

theorem find_releasesByPath (releases : List Release) (path : String) :
    (releasesByPath releases).find path = ((followed 0 releases).paths.find path).map ascending :=
  Table.find_mapRows _ _ _

/-- What is found of a path is the entry of the reference, where it has the same releases. -/
theorem reference_of_found (h : ∀ j, j ∈ found (followed 0 releases') path ↔
    touches releases path j) : (releasesByPath releases').find path = reference releases path := by
  have hlt : (touching releases path).Pairwise (· < ·) := List.pairwise_lt_range.filter _
  rw [find_releasesByPath, reference]
  rw [found] at h
  cases hf : (followed 0 releases').paths.find path with
  | none =>
    have hnil : touching releases path = [] := by
      refine List.eq_nil_iff_forall_not_mem.mpr fun j hj => ?_
      have hfound := (h j).mpr (mem_touching.mp hj)
      rw [hf] at hfound
      cases hfound
    rw [if_pos hnil]
    rfl
  | some l =>
    have heq : ascending l = touching releases path := by
      refine ascending_eq_of_mem hlt fun j => ?_
      rw [mem_touching, ← h, hf]
      rfl
    have hne : touching releases path ≠ [] := by
      obtain ⟨j, hj⟩ := List.exists_mem_of_ne_nil l fun hnil =>
        filled_followed path (hnil ▸ hf)
      refine List.ne_nil_of_mem (mem_touching.mpr ((h j).mp ?_))
      rwa [hf]
    rw [if_neg hne, Option.map_some, heq]

theorem reordered_refl (releases : List Release) : Reordered releases releases :=
  List.forall₂_same.mpr fun r _ => ⟨r.files, .refl _, rfl⟩

theorem follows_of_apart (hprev : PreviousDistinct releases) (hapart : NamesApart releases) :
    Follows releases := by
  have hreference : ∀ releases', Reordered releases releases' →
      ∀ path, (releasesByPath releases').find path = reference releases path := by
    refine fun releases' h path => reference_of_found fun j => ?_
    rw [(followed_spec h hprev hapart).2]
    simp
  have hself := hreference releases (reordered_refl releases)
  exact ⟨hself, fun releases' h path => (hreference releases' h path).trans (hself path).symm⟩

/-- **A name used again is misread.** In some order of its files a release is not found for a file
it lists. -/
theorem exists_not_found (hprev : PreviousDistinct releases) (hheads : HeadsApart releases)
    (hnot : ¬ NamesApart releases) : ∃ releases', Reordered releases releases' ∧ ∃ path j, k ≤ j ∧
      touches releases path (j - k) ∧ j ∉ found (followed k releases') path := by
  induction releases generalizing k with
  | nil => exact absurd trivial hnot
  | cons r newer ih =>
    have hnewer : PreviousDistinct newer := fun x hx => hprev x (List.mem_cons_of_mem r hx)
    by_cases hapart : NamesApart newer
    · -- The newer releases are read right, and this one has the name.
      obtain ⟨hhead, hfound⟩ :=
        followed_spec (k := k + 1) (reordered_refl newer) hnewer hapart
      have hreuse : ¬ ∀ f ∈ r.files, ∀ g ∈ r.files, g.previous = some f.path →
          headName newer g.path = headName newer f.path := fun h => hnot ⟨hapart, h⟩
      push Not at hreuse
      obtain ⟨f, hf, g, hg, hname, hne⟩ := hreuse
      refine ⟨{ r with files := g :: r.files.erase g } :: newer,
        .cons ⟨_, (List.perm_cons_erase hg).symm, rfl⟩ (reordered_refl newer),
        headName newer f.path, k, le_refl k, ?_, ?_⟩
      · rw [Nat.sub_self, touches_zero]
        exact ⟨f, hf, rfl⟩
      · rw [followed_cons, Followed.release, List.foldl_cons]
        refine not_found_files ?_ ?_
        · intro x hx
          rw [head_file]
          split
          · rwa [hhead]
          · rename_i hother
            rw [hhead]
            intro hsame
            obtain rfl := hheads.2 x (List.mem_of_mem_erase hx) f hf hsame
            exact hother hname
        · rw [mem_found_file, hhead, hfound]
          rintro (⟨hle, -⟩ | ⟨-, hsame⟩)
          · omega
          · exact hne hsame
    · obtain ⟨newer', hordered, path, j, hle, htouch, hfound⟩ :=
        ih (k := k + 1) hnewer hheads.1 hapart
      refine ⟨r :: newer', .cons ⟨r.files, .refl _, rfl⟩ hordered, path, j, by omega, ?_, ?_⟩
      · obtain ⟨m, rfl⟩ := Nat.exists_eq_add_of_le hle
        have hsub : k + 1 + m - k = m + 1 := by omega
        have hsub' : k + 1 + m - (k + 1) = m := by omega
        rwa [hsub, touches_succ, ← hsub']
      · rw [followed_cons, Followed.release, found_files_of_ne (by omega)]
        exact hfound

theorem apart_of_follows (hprev : PreviousDistinct releases) (hheads : HeadsApart releases)
    (h : Follows releases) : NamesApart releases := by
  by_contra hnot
  obtain ⟨releases', hordered, path, j, -, htouch, hfound⟩ :=
    exists_not_found (k := 0) hprev hheads hnot
  have hmem := mem_touching.mpr htouch
  have hsame := (h.2 releases' hordered path).trans (h.1 path)
  rw [find_releasesByPath, reference, if_neg (List.ne_nil_of_mem hmem)] at hsame
  obtain ⟨l, hl, hascending⟩ := Option.map_eq_some_iff.mp hsame
  rw [← hascending, ascending_eq, List.mem_dedup, List.mem_mergeSort] at hmem
  rw [found, hl] at hfound
  exact hfound hmem

/-- **Renames are followed at once**, in every order of the files, where a name that a release
renames is not used again in it for another file of the head; and where no two files of a release
have one head path, only there. -/
theorem releasesByPath_follows (hprev : PreviousDistinct releases) :
    (NamesApart releases → Follows releases) ∧
      (HeadsApart releases → (Follows releases ↔ NamesApart releases)) :=
  ⟨follows_of_apart hprev, fun hheads =>
    ⟨apart_of_follows hprev hheads, follows_of_apart hprev⟩⟩

/-- A release of these files, each with its previous name. -/
def renames (files : List (String × Option String)) : Release where
  tag := none
  commit := ""
  date := none
  commits := 1
  files := files.map fun f => { path := f.1, additions := 1, deletions := 0, previous := f.2 }
  notes := none
  url := none
  shas := []

def renamedTwice : List Release :=
  [renames [("old.rs", none), ("other.rs", none)], renames [("new.rs", some "old.rs")],
    renames [("last.rs", some "new.rs")]]

theorem renamedTwice_follows : Follows renamedTwice :=
  (releasesByPath_follows (by simp [PreviousDistinct, renamedTwice, renames])).1
    (by simp [NamesApart, renamedTwice, renames, headName, before])

/-- Two files that change places: the second is read as the first. -/
theorem swapped_is_lost : PreviousDistinct [renames [("a", some "b"), ("b", some "a")]] ∧
    reference [renames [("a", some "b"), ("b", some "a")]] "b" = some [0] ∧
    (releasesByPath [renames [("a", some "b"), ("b", some "a")]]).find "b" = none ∧
    ¬ Follows [renames [("a", some "b"), ("b", some "a")]] := by
  have hreference : reference [renames [("a", some "b"), ("b", some "a")]] "b" = some [0] := by
    decide +kernel
  have hnone : (releasesByPath [renames [("a", some "b"), ("b", some "a")]]).find "b" = none := by
    decide +kernel
  refine ⟨by simp [PreviousDistinct, renames], hreference, hnone, fun h => ?_⟩
  have hsame := h.1 "b"
  rw [hnone, hreference] at hsame
  cases hsame

end Releases
end Proof
end Diffz
