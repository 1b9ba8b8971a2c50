import Diffz.Proof.Address.Github

/-!
# GitLab addresses are reopened

A project is a path, and the kind of an address is told by the separator that is found in the path
of the URL. `reopen_address` writes the separator after the project, where it is found again unless
there is one in the project already. The short form takes such a project.
-/

set_option autoImplicit false

namespace Diffz
namespace Proof
namespace Gitlab

open Diffz.Gitlab
open Diffz.Github (refName decodePath encodePath)

variable {parseUrl : ParseUrl} {s : String}

/-! ## Projects -/

theorem mem_segments {c : Char} {l : List Char} (h : c ∈ l) :
    c = '/' ∨ ∃ p ∈ l.splitOn '/', c ∈ p := by
  induction l with
  | nil => cases h
  | cons d l ih =>
    rw [List.splitOn_cons_eq_if_modifyHead]
    split
    · rename_i hd
      rcases List.mem_cons.mp h with rfl | h
      · exact .inl (by simpa using hd)
      · rcases ih h with hc | ⟨p, hp, hcp⟩
        · exact .inl hc
        · exact .inr ⟨p, by simp [hp], hcp⟩
    · cases hs : l.splitOn '/' with
      | nil => exact absurd hs (List.splitOn_ne_nil _ _)
      | cons q qs =>
        rcases List.mem_cons.mp h with rfl | h
        · exact .inr ⟨c :: q, by simp, by simp⟩
        · rcases ih h with hc | ⟨p, hp, hcp⟩
          · exact .inl hc
          · rw [hs, List.mem_cons] at hp
            rcases hp with rfl | hp
            · exact .inr ⟨d :: p, by simp, by simp [hcp]⟩
            · exact .inr ⟨p, by simp [hp], hcp⟩

variable {project : List Char}

theorem segment_valid (h : validProject project = true) {p : List Char}
    (hp : p ∈ project.splitOn '/') :
    p ≠ [] ∧ p ≠ ['.'] ∧ p ≠ ['.', '.'] ∧ ∀ c ∈ p, nameChar c = true := by
  simp only [validProject, Bool.and_eq_true, List.all_eq_true] at h
  have hseg := h.2 p hp
  simpa [and_assoc] using hseg

theorem project_plain (h : validProject project = true) : ∀ c ∈ project, plainChar c := by
  intro c hc
  rcases mem_segments hc with rfl | ⟨p, hp, hcp⟩
  · decide
  · exact plainChar_of_name ((segment_valid h hp).2.2.2 c hcp)

theorem relativeSegment_project (h : validProject project = true) :
    relativeSegment project = false := by
  rw [relativeSegment, List.any_eq_false]
  intro p hp
  have hseg := segment_valid h hp
  simp [hseg.2.1, hseg.2.2.1]

theorem project_ne_nil (h : validProject project = true) : project ≠ [] := by
  rintro rfl
  exact absurd h (by decide)

theorem project_begins (h : validProject project = true) : project.head? ≠ some '/' := by
  intro hc
  obtain ⟨l, rfl⟩ := List.head?_eq_some_iff.mp hc
  have hnil : [] ∈ ('/' :: l).splitOn '/' := by
    rw [List.splitOn_cons_eq_if_modifyHead]
    simp
  exact (segment_valid h hnil).1 rfl

theorem project_ends (h : validProject project = true) : project.getLast? ≠ some '/' := by
  intro hc
  obtain ⟨l, rfl⟩ := List.getLast?_eq_some_iff.mp hc
  have hnil : [] ∈ (l ++ ['/']).splitOn '/' := by
    rw [List.splitOn_append_cons_self]
    simp
  exact (segment_valid h hnil).1 rfl

/-! ## What is accepted -/

structure MrAccepted (parseUrl : ParseUrl) (a : MrAddress) : Prop where
  host : IsHost parseUrl a.host
  project : validProject a.project.toList = true
  positive : a.number ≠ 0
  bounded : a.number ≤ u64Max

theorem MrAddress.checked_ok {host : String} {project n : List Char} {a : MrAddress}
    (hhost : IsHost parseUrl host) (h : MrAddress.checked host project n = .ok a) :
    MrAccepted parseUrl a := by
  unfold MrAddress.checked at h
  split at h
  · cases h
  · rename_i hnames
    simp only [not_or, not_not] at hnames
    split at h
    · cases h
    · rename_i number hnumber
      split at h
      · cases h
      · rename_i hzero
        cases h
        exact ⟨hhost, by simpa using hnames.1, hzero, parseU64_le hnumber⟩

theorem MrAddress.parse_ok {a : MrAddress} (h : MrAddress.parse parseUrl s = .ok a) :
    MrAccepted parseUrl a := by
  unfold MrAddress.parse at h
  dsimp only at h
  split at h
  · rename_i hstarts
    split at h
    · cases h
    · split at h
      · cases h
      · rename_i u hu
        unfold MrAddress.ofUrl at h
        split at h
        · cases h
        · split at h
          · cases h
          · dsimp only at h
            split at h
            · cases h
            · split at h
              · cases h
              · rename_i host hhost
                exact MrAddress.checked_ok (.inr (.inr ⟨_, u, hstarts, hu, hhost⟩)) h
  · unfold MrAddress.ofSlug at h
    split at h
    · cases h
    · exact MrAddress.checked_ok (.inr (.inl rfl)) h

/-- The separator before the refs, without the slash that may follow it. -/
def compareMark : List Char := ['/', '-', '/', 'c', 'o', 'm', 'p', 'a', 'r', 'e']

def mergeMark : List Char :=
  ['/', '-', '/', 'm', 'e', 'r', 'g', 'e', '_', 'r', 'e', 'q', 'u', 'e', 's', 't', 's', '/']

theorem compareMark_eq : "/-/compare".toList = compareMark := rfl

theorem compareMark_slash : "/-/compare/".toList = compareMark ++ ['/'] := rfl

theorem mergeMark_eq : "/-/merge_requests/".toList = mergeMark := rfl

theorem mergeMark_plain : ∀ c ∈ mergeMark, plainChar c := plain_of_all (by decide +kernel)

theorem compareMark_plain : ∀ c ∈ compareMark ++ ['/'], plainChar c :=
  plain_of_all (by decide +kernel)

structure CompareAccepted (parseUrl : ParseUrl) (a : CompareAddress) : Prop where
  host : IsHost parseUrl a.host
  project : validProject a.project.toList = true
  first : ¬ compareMark <:+: a.project.toList ++ compareMark.dropLast
  base : refName a.refs.base.toList = true
  head : refName a.refs.head.toList = true

theorem CompareAddress.ofUrl_ok {u : Url} {a : CompareAddress}
    (hhost : ∀ host, u.host = some host → IsHost parseUrl host)
    (h : CompareAddress.ofUrl u = .ok a) : CompareAccepted parseUrl a := by
  unfold CompareAddress.ofUrl at h
  split at h
  · cases h
  · split at h
    · cases h
    · rename_i project tail hsplit
      obtain ⟨⟨base, head, direct, id⟩, -, h⟩ := ok_of_bind h
      dsimp only at h
      split at h
      · cases h
      · rename_i hproject
        split at h
        · cases h
        · rename_i hrefs
          simp only [not_or, not_not] at hrefs hproject
          split at h
          · cases h
          · rename_i host hu
            cases h
            refine ⟨hhost host hu, by simpa using hproject, ?_, by simpa using hrefs.1,
              by simpa using hrefs.2⟩
            rw [String.toList_ofList]
            exact ((splitOnce_eq_some_iff (by decide)).mp hsplit).2

def TargetAccepted (parseUrl : ParseUrl) : Target → Prop
  | .mr a => MrAccepted parseUrl a
  | .compare a => CompareAccepted parseUrl a

theorem Target.parse_ok {a : Target} (h : Target.parse parseUrl s = .ok a) :
    TargetAccepted parseUrl a := by
  unfold Target.parse at h
  dsimp only at h
  split at h
  · rename_i hcompare
    rw [Bool.and_eq_true] at hcompare
    cases hc : CompareAddress.parse parseUrl (trim s) with
    | error e =>
      rw [hc] at h
      cases h
    | ok c =>
      rw [hc] at h
      cases h
      unfold CompareAddress.parse at hc
      dsimp only at hc
      split at hc
      · cases hc
      · split at hc
        · cases hc
        · rename_i u hu
          exact CompareAddress.ofUrl_ok (fun host hhost =>
            .inr (.inr ⟨_, u, by rw [trim_trim]; exact hcompare.1, hu, hhost⟩)) hc
  · cases hp : MrAddress.parse parseUrl (trim s) with
    | error e =>
      rw [hp] at h
      cases h
    | ok p =>
      rw [hp] at h
      cases h
      exact MrAddress.parse_ok hp

/-! ## Ranges -/

/-- Dots do not straddle a joint that has another character on one of its sides. -/
theorem dots_append {n : Nat} {x rest : List Char}
    (hjoint : x.getLast? ≠ some '.' ∨ rest.head? ≠ some '.')
    (h : List.replicate n '.' <:+: x ++ rest) :
    List.replicate n '.' <:+: x ∨ List.replicate n '.' <:+: rest := by
  rcases infix_append_cases h with hin | hin | ⟨k, hk, hk', hsuf, hpre⟩
  · exact .inl hin
  · exact .inr hin
  · rw [List.length_replicate] at hk'
    rw [List.take_replicate, Nat.min_eq_left (by omega)] at hsuf
    rw [List.drop_replicate] at hpre
    obtain ⟨t, rfl⟩ := hsuf
    obtain ⟨u, rfl⟩ := hpre
    rcases hjoint with hj | hj
    · refine absurd ?_ hj
      rw [List.getLast?_append_of_ne_nil _ (by simp; omega), List.getLast?_replicate]
      simp
      omega
    · refine absurd ?_ hj
      rw [List.head?_append_of_ne_nil _ (by simp; omega), List.head?_replicate]
      simp
      omega

/-- **The refs of a range are found again**, since neither has two dots, begins with one or ends in
one. -/
theorem splitRange_refs {base head : List Char} (hbase : refName base = true)
    (hhead : refName head = true) (direct : Bool) :
    splitRange (base ++ dots direct ++ head) = some (base, head, direct) := by
  obtain ⟨-, -, hlast, hbase, -⟩ := refName_spec hbase
  obtain ⟨-, hfirst, -, hhead, -⟩ := refName_spec hhead
  have hlast : base.getLast? ≠ some '.' := fun h => by simpa using hlast _ h
  have hfirst : head.head? ≠ some '.' := fun h => by simpa using hfirst _ h
  have htwo : ∀ x : List Char, ['.', '.', '.'] <:+: x → ['.', '.'] <:+: x :=
    fun x h => List.IsInfix.trans ⟨[], ['.'], rfl⟩ h
  unfold splitRange
  cases direct with
  | false =>
    have hsplit : splitOnce ['.', '.', '.'] (base ++ ['.', '.', '.'] ++ head) =
        some (base, head) := by
      rw [splitOnce_eq_some_iff (by simp)]
      refine ⟨rfl, fun hin => ?_⟩
      rcases dots_append (n := 3) (.inl hlast) hin with hin | hin
      · exact hbase (htwo _ hin)
      · simpa using hin.length_le
    simp only [dots, Bool.false_eq_true, if_false, hsplit]
  | true =>
    have hthree : splitOnce ['.', '.', '.'] (base ++ ['.', '.'] ++ head) = none := by
      rw [splitOnce_eq_none_iff (by simp), List.append_assoc]
      intro hin
      rcases dots_append (n := 3) (.inl hlast) hin with hin | hin
      · exact hbase (htwo _ hin)
      · rcases dots_append (n := 3) (.inr hfirst) hin with hin | hin
        · simpa using hin.length_le
        · exact hhead (htwo _ hin)
    have hsplit : splitOnce ['.', '.'] (base ++ ['.', '.'] ++ head) = some (base, head) := by
      rw [splitOnce_eq_some_iff (by simp)]
      refine ⟨rfl, fun hin => ?_⟩
      rcases dots_append (n := 2) (.inl hlast) hin with hin | hin
      · exact hbase hin
      · simpa using hin.length_le
    simp only [dots, if_true, hthree, hsplit, Option.map_some]

/-! ## The reopened text -/

/-- The target has what was read from an address, with the project split at its last slash. -/
def Addressed (t : RemoteTarget) : Target → Prop
  | .mr a => t.repository.host = a.host ∧ t.pr = a.number ∧ t.compare = none ∧
      rsplitOnce ['/'] a.project.toList =
        some (t.repository.owner.toList, t.repository.name.toList)
  | .compare a => t.repository.host = a.host ∧ t.compare = some a.refs ∧
      rsplitOnce ['/'] a.project.toList =
        some (t.repository.owner.toList, t.repository.name.toList)

theorem project_joined {project owner name : String}
    (h : rsplitOnce ['/'] project.toList = some (owner.toList, name.toList)) :
    project = owner ++ "/" ++ name := by
  rw [← String.toList_inj, rsplitOnce_eq_some (by simp) h]
  simp

/-- The path of a merge request. -/
def mrPath (a : MrAddress) : String := a.project ++ "/-/merge_requests/" ++ toString a.number

/-- The path of a compare. -/
def comparePath (a : CompareAddress) : String := a.project ++ "/-/compare/" ++ rangeText a.refs

theorem mrPath_toList (a : MrAddress) :
    (mrPath a).toList = a.project.toList ++ mergeMark ++ Nat.toDigits 10 a.number := by
  simp only [mrPath, String.toList_append, mergeMark_eq, toString_toList]

theorem encodePath_project {project : String} (h : validProject project.toList = true) :
    encodePath project = project :=
  encodePath_plain (project_plain h)

theorem encodePath_mrPath {a : MrAddress} (ha : MrAccepted parseUrl a) :
    encodePath (mrPath a) = mrPath a := by
  have hdigits : encodePath (toString a.number) = toString a.number :=
    encodePath_plain fun c hc => plainChar_of_digit (digits_plain _ c (toString_toList _ ▸ hc))
  rw [mrPath, encodePath_append, encodePath_append, encodePath_project ha.project, hdigits,
    encodePath_plain (mergeMark_eq ▸ mergeMark_plain)]

theorem encodePath_comparePath {a : CompareAddress} (ha : CompareAccepted parseUrl a) :
    (encodePath (comparePath a)).toList =
      a.project.toList ++ compareMark ++ '/' :: (encodePath (rangeText a.refs)).toList := by
  rw [comparePath, encodePath_append, encodePath_append, encodePath_project ha.project,
    encodePath_plain (compareMark_slash ▸ compareMark_plain)]
  simp only [String.toList_append, compareMark_slash, List.append_assoc, List.singleton_append]

theorem reopenAddress_mr {t : RemoteTarget} {a : MrAddress} (ha : MrAccepted parseUrl a)
    (ht : Addressed t (.mr a)) : Gitlab.reopenAddress t = reopenText a.host (mrPath a) := by
  obtain ⟨hhost, hpr, hcompare, hproject⟩ := ht
  rw [reopenText, encodePath_mrPath ha, mrPath, project_joined hproject]
  simp only [Gitlab.reopenAddress, hcompare, hhost, hpr, String.append_assoc]

theorem reopenAddress_compare {t : RemoteTarget} {a : CompareAddress}
    (ha : CompareAccepted parseUrl a) (ht : Addressed t (.compare a)) :
    Gitlab.reopenAddress t = reopenText a.host (comparePath a) := by
  obtain ⟨hhost, hcompare, hproject⟩ := ht
  have hpath : encodePath (comparePath a) =
      t.repository.owner ++ "/" ++ t.repository.name ++ "/-/compare/" ++
        encodePath (rangeText a.refs) := by
    rw [comparePath, encodePath_append, encodePath_append, encodePath_project ha.project,
      encodePath_plain (compareMark_slash ▸ compareMark_plain), project_joined hproject]
  rw [reopenText, hpath, encodePath_rangeText]
  simp only [Gitlab.reopenAddress, hcompare, hhost, String.append_assoc]

theorem head?_project {project : List Char} (h : validProject project = true) (rest : List Char) :
    (project ++ rest).head? ≠ some '/' := by
  rw [List.head?_append_of_ne_nil _ (project_ne_nil h)]
  exact project_begins h

theorem mrPath_ends (a : MrAddress) : (mrPath a).toList.getLast? ≠ some '/' := by
  rw [mrPath_toList, List.getLast?_append_of_ne_nil _ Nat.toDigits_ne_nil]
  exact fun h => slash_not_digit _ (List.mem_of_getLast? h)

theorem comparePath_ends {a : CompareAddress} (ha : CompareAccepted parseUrl a) :
    (comparePath a).toList.getLast? ≠ some '/' := by
  rw [comparePath, String.toList_append,
    List.getLast?_append_of_ne_nil _ (rangeText_ne_nil (.of_refName ha.head))]
  exact rangeText_ends (.of_refName ha.head)

theorem relativeSegment_mrPath {a : MrAddress} (ha : MrAccepted parseUrl a) :
    relativeSegment (mrPath a).toList = false := by
  have hparts : (mrPath a).toList = a.project.toList ++ '/' :: ("-".toList ++ '/' ::
      ("merge_requests".toList ++ '/' :: Nat.toDigits 10 a.number)) := by
    simp [mrPath]
  rw [hparts, relativeSegment_append, relativeSegment_append, relativeSegment_append,
    relativeSegment_project ha.project, relativeSegment_digits]
  decide

theorem relativeSegment_comparePath {a : CompareAddress} (ha : CompareAccepted parseUrl a) :
    relativeSegment (comparePath a).toList = false := by
  have hparts : (comparePath a).toList = a.project.toList ++ '/' :: ("-".toList ++ '/' ::
      ("compare".toList ++ '/' :: (rangeText a.refs).toList)) := by
    simp [comparePath]
  rw [hparts, relativeSegment_append, relativeSegment_append, relativeSegment_append,
    relativeSegment_project ha.project, rangeText_toList,
    relativeSegment_range (.of_refName ha.base) (.of_refName ha.head)]
  decide

/-! ## The separators -/

/-- A project that has no separator of its own. -/
structure NoSeparator (project : String) : Prop where
  merge : ¬ mergeMark <:+: project.toList ++ ['/']
  compare : ¬ compareMark ++ ['/'] <:+: '/' :: project.toList ++ ['/']

instance (project : String) : Decidable (NoSeparator project) :=
  decidable_of_iff (¬ mergeMark <:+: project.toList ++ ['/'] ∧
      ¬ compareMark ++ ['/'] <:+: '/' :: project.toList ++ ['/'])
    ⟨fun h => ⟨h.1, h.2⟩, fun h => ⟨h.merge, h.compare⟩⟩

/-- The separator after a project is the first one, if there is none that ends in its slash. -/
theorem first_merge {project : List Char} :
    mergeMark <:+: project ++ mergeMark.dropLast ↔ mergeMark <:+: project ++ ['/'] := by
  constructor
  · intro h
    rcases infix_append_cases h with hin | hin | ⟨k, hk, hk', hsuf, hpre⟩
    · exact hin.trans ⟨[], ['/'], rfl⟩
    · exact absurd hin (by decide +kernel)
    · have hjoint : ∀ k < mergeMark.length, 0 < k →
          mergeMark.drop k <+: mergeMark.dropLast → k = 17 := by decide +kernel
      rw [hjoint k hk' hk hpre] at hsuf
      obtain ⟨t, rfl⟩ := hsuf
      exact ⟨t, [], by simp [mergeMark]⟩
  · exact fun h => h.trans ⟨[], mergeMark.dropLast.drop 1, by simp [mergeMark]⟩

/-- What ends in a slash ends before a text that has none. -/
theorem infix_noSlash {p l t : List Char} (ht : '/' ∉ t) (h : p ++ ['/'] <:+: l ++ t) :
    p ++ ['/'] <:+: l := by
  rcases infix_append_cases h with hin | hin | ⟨k, hk, hk', hsuf, hpre⟩
  · exact hin
  · exact absurd (hin.subset (by simp)) ht
  · have hle : k ≤ p.length := by
      simp only [List.length_append, List.length_singleton] at hk'
      omega
    rw [List.drop_append_of_le_length hle] at hpre
    exact absurd (hpre.subset (by simp)) ht

/-- The separator of a merge request has the one of a compare only by its first slash. -/
theorem compare_before_merge {l : List Char} (h : compareMark ++ ['/'] <:+: l ++ mergeMark) :
    compareMark ++ ['/'] <:+: l ++ ['/'] := by
  rcases infix_append_cases h with hin | hin | ⟨k, hk, hk', hsuf, hpre⟩
  · exact hin.trans ⟨[], ['/'], rfl⟩
  · exact absurd hin (by decide +kernel)
  · have hjoint : ∀ k < (compareMark ++ ['/']).length, 0 < k →
        (compareMark ++ ['/']).drop k <+: mergeMark → k = 10 := by decide +kernel
    rw [hjoint k hk' hk hpre] at hsuf
    obtain ⟨t, rfl⟩ := hsuf
    exact ⟨t, [], by rw [List.append_nil, List.append_assoc]; rfl⟩

/-- The path of a merge request has the separator of a compare only in its project. -/
theorem compare_in_mrPath (a : MrAddress) :
    compareMark ++ ['/'] <:+: '/' :: (mrPath a).toList ↔
      compareMark ++ ['/'] <:+: '/' :: a.project.toList ++ ['/'] := by
  have hpath : '/' :: (mrPath a).toList =
      ('/' :: a.project.toList ++ mergeMark) ++ Nat.toDigits 10 a.number := by
    rw [mrPath_toList, List.cons_append, List.cons_append]
  rw [hpath]
  constructor
  · exact fun h => compare_before_merge (infix_noSlash (slash_not_digit _) h)
  · intro h
    refine h.trans ⟨[], mergeMark.drop 1 ++ Nat.toDigits 10 a.number, ?_⟩
    simp [mergeMark]

theorem mrPath_ne_empty (a : MrAddress) : mrPath a ≠ "" := by
  intro h
  have hnil := congrArg String.toList h
  rw [mrPath_toList] at hnil
  simp [mergeMark] at hnil

theorem isCompare_mr {a : MrAddress} (ha : MrAccepted parseUrl a) :
    isCompare (bareUrl a.host ("/" ++ encodePath (mrPath a))) = true ↔
      compareMark ++ ['/'] <:+: '/' :: a.project.toList ++ ['/'] := by
  have hend : ¬ compareMark <:+ '/' :: (mrPath a).toList := by
    rintro ⟨t, ht⟩
    have hlast := congrArg List.getLast? ht
    rw [List.getLast?_append_of_ne_nil _ (by decide), mrPath_toList, ← List.cons_append,
      List.getLast?_append_of_ne_nil _ Nat.toDigits_ne_nil] at hlast
    exact absurd (digits_plain _ _ (List.mem_of_getLast? hlast.symm)) (by decide)
  rw [isCompare, endTrimmed_bareUrl (mrPath_ne_empty a) (mrPath_ends a), encodePath_mrPath ha, compareMark_eq,
    hasText, compareMark_slash, ← compare_in_mrPath]
  simp [hend, List.isSuffixOf_iff_suffix]

theorem comparePath_ne_empty (a : CompareAddress) : comparePath a ≠ "" := by
  intro h
  have hnil := congrArg String.toList h
  simp only [comparePath, String.toList_append, compareMark_slash] at hnil
  simp [compareMark] at hnil

theorem isCompare_compare {a : CompareAddress} (ha : CompareAccepted parseUrl a) :
    isCompare (bareUrl a.host ("/" ++ encodePath (comparePath a))) = true := by
  have hin : compareMark ++ ['/'] <:+: '/' :: (encodePath (comparePath a)).toList := by
    rw [encodePath_comparePath ha]
    exact ⟨'/' :: a.project.toList, (encodePath (rangeText a.refs)).toList, by simp⟩
  rw [isCompare, endTrimmed_bareUrl (comparePath_ne_empty a) (comparePath_ends ha), hasText,
    compareMark_slash]
  simp [hin]

/-! ## Reading the reopened text -/

theorem trimmed_mrPath {a : MrAddress} (ha : MrAccepted parseUrl a) :
    (bareUrl a.host ("/" ++ encodePath (mrPath a))).trimmed =
      a.project.toList ++ mergeMark ++ Nat.toDigits 10 a.number := by
  have hfirst : (mrPath a).toList.head? ≠ some '/' := by
    rw [mrPath_toList, List.append_assoc]
    exact head?_project ha.project _
  rw [trimmed_bareUrl hfirst (mrPath_ends a), encodePath_mrPath ha, mrPath_toList]

theorem trimmed_comparePath {a : CompareAddress} (ha : CompareAccepted parseUrl a) :
    (bareUrl a.host ("/" ++ encodePath (comparePath a))).trimmed =
      a.project.toList ++ compareMark ++ '/' :: (encodePath (rangeText a.refs)).toList := by
  have hfirst : (comparePath a).toList.head? ≠ some '/' := by
    rw [comparePath, String.toList_append, String.toList_append, List.append_assoc]
    exact head?_project ha.project _
  rw [trimmed_bareUrl hfirst (comparePath_ends ha), encodePath_comparePath ha]

theorem checked_again {a : MrAddress} (ha : MrAccepted parseUrl a) :
    MrAddress.checked a.host a.project.toList (Nat.toDigits 10 a.number) = .ok a := by
  unfold MrAddress.checked
  have hdigits : (Nat.toDigits 10 a.number).all Char.isDigit = true := digits_all_isDigit _
  rw [if_neg (by rw [ha.project, hdigits]; simp), parseU64_toDigits ha.bounded]
  simp [ha.positive]

/-- The project is what stands before the first separator. -/
theorem MrAddress.ofUrl_split {u : Url} {a : MrAddress} (h : MrAddress.ofUrl u = .ok a) :
    ∃ tail, splitOnce mergeMark u.trimmed = some (a.project.toList, tail) := by
  unfold MrAddress.ofUrl at h
  split at h
  · cases h
  · split at h
    · cases h
    · rename_i project tail hsplit
      dsimp only at h
      split at h
      · cases h
      · split at h
        · cases h
        · unfold MrAddress.checked at h
          split at h
          · cases h
          · split at h
            · cases h
            · split at h
              · cases h
              · cases h
                exact ⟨tail, by rw [String.toList_ofList]; exact hsplit⟩

/-- A merge request is read back from its URL, if its separator is found after the project. -/
theorem ofUrl_mrPath {a : MrAddress} (ha : MrAccepted parseUrl a) :
    MrAddress.ofUrl (bareUrl a.host ("/" ++ encodePath (mrPath a))) = .ok a ↔
      ¬ mergeMark <:+: a.project.toList ++ ['/'] := by
  rw [← first_merge]
  constructor
  · intro h hin
    obtain ⟨tail, hsplit⟩ := MrAddress.ofUrl_split h
    exact ((splitOnce_eq_some_iff (by decide)).mp hsplit).2 hin
  · intro hfirst
    have hsplit : splitOnce mergeMark
        (a.project.toList ++ mergeMark ++ Nat.toDigits 10 a.number) =
          some (a.project.toList, Nat.toDigits 10 a.number) :=
      (splitOnce_eq_some_iff (by decide)).mpr ⟨rfl, hfirst⟩
    have hparts : (Nat.toDigits 10 a.number).splitOn '/' = [Nat.toDigits 10 a.number] :=
      List.splitOn_eq_singleton (slash_not_digit _)
    simp only [MrAddress.ofUrl, bareUrl_hasAccess, bareUrl_query, bareUrl_host, mergeMark_eq,
      trimmed_mrPath ha, hsplit, hparts, List.headD_cons, checked_again ha]
    rfl

theorem ofUrl_comparePath {a : CompareAddress} (ha : CompareAccepted parseUrl a)
    (hid : a.fromProjectId = none) :
    CompareAddress.ofUrl (bareUrl a.host ("/" ++ encodePath (comparePath a))) = .ok a := by
  have hsplit : splitOnce compareMark
      (a.project.toList ++ compareMark ++ '/' :: (encodePath (rangeText a.refs)).toList) =
        some (a.project.toList, '/' :: (encodePath (rangeText a.refs)).toList) :=
    (splitOnce_eq_some_iff (by decide)).mpr ⟨rfl, ha.first⟩
  have hrange : splitRange (rangeText a.refs).toList =
      some (a.refs.base.toList, a.refs.head.toList, a.refs.direct) := by
    rw [rangeText_toList]
    exact splitRange_refs ha.base ha.head a.refs.direct
  have hrefs : CompareAddress.urlRefs (bareUrl a.host ("/" ++ encodePath (comparePath a)))
      ('/' :: (encodePath (rangeText a.refs)).toList) =
        .ok (a.refs.base.toList, a.refs.head.toList, a.refs.direct, none) := by
    have htail : stripPrefix ['/'] ('/' :: (encodePath (rangeText a.refs)).toList) =
        some (encodePath (rangeText a.refs)).toList := stripPrefix_append ['/'] _
    simp only [CompareAddress.urlRefs, htail, bareUrl_queryPairs, CompareAddress.pathQuery,
      ok_bind, decodePath_encodePath, hrange]
    rfl
  simp only [CompareAddress.ofUrl, bareUrl_scheme, bareUrl_hasAccess, bareUrl_host,
    compareMark_eq, trimmed_comparePath ha, hsplit, hrefs, ok_bind, ha.project, ha.base, ha.head,
    String.ofList_toList, ← hid]
  rfl

/-- The host of a target. -/
def Target.host : Target → String
  | .mr a => a.host
  | .compare a => a.host

/-- What a target has to be for its address to be read back. -/
def Reopens : Target → Prop
  | .mr a => NoSeparator a.project
  | .compare _ => True

/-- The number a compare URL may give for the project of its base. -/
def Target.fromProjectId : Target → Option Nat
  | .mr _ => none
  | .compare a => a.fromProjectId

/-- A text with a relative segment is refused. -/
theorem parse_relative {a : Target} (htrim : trim s = s)
    (hstarts : startsWith s.toList "https://" = true)
    (hrelative : relativeSegment s.toList = true) : Target.parse parseUrl s ≠ .ok a := by
  intro h
  simp only [Target.parse, CompareAddress.parse, MrAddress.parse, htrim, hstarts, hrelative,
    if_true] at h
  split at h
  · cases h
  · cases h

theorem parse_mr (hurl : KeepsUrls parseUrl) {a : MrAddress} (ha : MrAccepted parseUrl a)
    (hhost : relativeHost a.host = false) :
    Target.parse parseUrl (reopenText a.host (mrPath a)) = .ok (.mr a) ↔ NoSeparator a.project := by
  have htrim : trim (reopenText a.host (mrPath a)) = reopenText a.host (mrPath a) :=
    trim_reopenText (mrPath_ne_empty a)
  have hparse := parseUrl_reopenText hurl ha.host (relativeSegment_mrPath ha)
  have hrelative : relativeSegment (reopenText a.host (mrPath a)).toList = false := by
    rw [relativeSegment_reopenText (hurl.noSlash _ ha.host), hhost, relativeSegment_mrPath ha]
    rfl
  have hmr : MrAddress.parse parseUrl (reopenText a.host (mrPath a)) =
      MrAddress.ofUrl (bareUrl a.host ("/" ++ encodePath (mrPath a))) := by
    simp only [MrAddress.parse, htrim, startsWith_reopenText, hrelative, hparse, if_true,
      Bool.false_eq_true, if_false]
  simp only [Target.parse, htrim, startsWith_reopenText, hparse, Option.any_some, Bool.true_and,
    hmr]
  by_cases hcompare : compareMark ++ ['/'] <:+: '/' :: a.project.toList ++ ['/']
  · rw [if_pos ((isCompare_mr ha).mpr hcompare)]
    constructor
    · intro h
      obtain ⟨c, -, hc⟩ := ok_of_map h
      cases hc
    · exact fun h => absurd hcompare h.compare
  · rw [if_neg (mt (isCompare_mr ha).mp hcompare)]
    constructor
    · intro h
      obtain ⟨m, hm, hma⟩ := ok_of_map h
      cases hma
      exact ⟨(ofUrl_mrPath ha).mp hm, hcompare⟩
    · intro h
      rw [(ofUrl_mrPath ha).mpr h.merge]
      rfl

theorem parse_compare (hurl : KeepsUrls parseUrl) {a : CompareAddress}
    (ha : CompareAccepted parseUrl a) (hid : a.fromProjectId = none)
    (hhost : relativeHost a.host = false) :
    Target.parse parseUrl (reopenText a.host (comparePath a)) = .ok (.compare a) := by
  have htrim : trim (reopenText a.host (comparePath a)) = reopenText a.host (comparePath a) :=
    trim_reopenText (comparePath_ne_empty a)
  have hparse := parseUrl_reopenText hurl ha.host (relativeSegment_comparePath ha)
  have hrelative : relativeSegment (reopenText a.host (comparePath a)).toList = false := by
    rw [relativeSegment_reopenText (hurl.noSlash _ ha.host), hhost, relativeSegment_comparePath ha]
    rfl
  simp only [Target.parse, CompareAddress.parse, htrim, startsWith_reopenText, hparse, hrelative,
    Option.any_some, isCompare_compare ha, ofUrl_comparePath ha hid]
  rfl

/-- **GitLab addresses survive reopening**, unless their host is `.` or `..` or there is a separator
in the project of a merge request. -/
theorem gitlab_reopens_iff (hurl : KeepsUrls parseUrl) {a : Target} {t : RemoteTarget}
    (h : Target.parse parseUrl s = .ok a) (hid : Target.fromProjectId a = none) (ht : Addressed t a) :
    Target.parse parseUrl (Gitlab.reopenAddress t) = .ok a ↔
      relativeHost (Target.host a) = false ∧ Reopens a := by
  have ha := Target.parse_ok h
  cases a with
  | mr a =>
    rw [reopenAddress_mr ha ht]
    cases hhost : relativeHost a.host with
    | true =>
      refine iff_of_false ?_ (by simp [Target.host, hhost])
      refine parse_relative (trim_reopenText (mrPath_ne_empty a)) startsWith_reopenText ?_
      rw [relativeSegment_reopenText (hurl.noSlash _ ha.host), hhost, Bool.true_or]
    | false =>
      rw [parse_mr hurl ha hhost]
      simp [Target.host, Reopens, hhost]
  | compare a =>
    rw [reopenAddress_compare ha ht]
    cases hhost : relativeHost a.host with
    | true =>
      refine iff_of_false ?_ (by simp [Target.host, hhost])
      refine parse_relative (trim_reopenText (comparePath_ne_empty a)) startsWith_reopenText ?_
      rw [relativeSegment_reopenText (hurl.noSlash _ ha.host), hhost, Bool.true_or]
    | false =>
      rw [parse_compare hurl ha hid hhost]
      simp [Target.host, Reopens, hhost]

/-- A target of an address on GitLab. -/
def addressedTarget (host owner name : String) (pr : Nat) (compare : Option CompareRefs) :
    RemoteTarget :=
  { provider := .gitlab, repository := ⟨host, 7, owner, name⟩, account := "alice", pr,
    targetTip := "a1", comparisonBase := "b2", head := "c3", isOpen := true, draft := false,
    merged := false, pendingReview := false, compare, entire := none }

/-- A compare in a nested project. -/
def nestedCompare : CompareAddress :=
  ⟨"gitlab.com", "group/sub/project", ⟨"main", "fix/1.0", true⟩, none⟩

theorem nestedCompare_reopens : Target.parse readPlainUrl
    (Gitlab.reopenAddress (addressedTarget "gitlab.com" "group/sub" "project" 0
      (some nestedCompare.refs))) = .ok (.compare nestedCompare) :=
  (gitlab_reopens_iff
    (s := "https://gitlab.com/group/sub/project/-/compare/main..fix%2F1.0")
    (a := .compare nestedCompare) readPlainUrl_keeps (by decide +kernel) rfl
    ⟨rfl, rfl, by decide⟩).mpr ⟨by decide, trivial⟩

/-- The project of a merge request that has the separator in it is cut there. -/
theorem separatorProject_not_reopened :
    Target.parse readPlainUrl "a/-/merge_requests/b!5" =
        .ok (.mr ⟨"gitlab.com", "a/-/merge_requests/b", 5⟩) ∧
      Addressed (addressedTarget "gitlab.com" "a/-/merge_requests" "b" 5 none)
        (.mr ⟨"gitlab.com", "a/-/merge_requests/b", 5⟩) ∧
      Target.parse readPlainUrl
        (Gitlab.reopenAddress (addressedTarget "gitlab.com" "a/-/merge_requests" "b" 5 none)) =
          .error "Invalid MR URL suffix" :=
  ⟨by decide +kernel, ⟨rfl, rfl, rfl, by decide⟩, by decide +kernel⟩

end Gitlab
end Proof
end Diffz
