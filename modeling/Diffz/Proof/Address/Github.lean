import Diffz.Lib.Fallible
import Diffz.Proof.Address.Reopened

/-!
# GitHub addresses are reopened

What `GithubTarget::parse` has accepted is written back by `reopen_address` as a URL that it accepts
again, and reads the same way. The range of a compare is written out as the text it was split from,
so it is split there again.

The hosts `.` and `..` are refused when they come back. `url` decodes `https://%2e/` to such a host,
and the check for relative segments, which is made on the text, does not see it there.
-/

set_option autoImplicit false

namespace Diffz
namespace Proof

open Diffz.Github

variable {parseUrl : ParseUrl} {s : String}

/-! ## Names -/

theorem plainChar_of_name {c : Char} (h : nameChar c = true) : plainChar c := by
  simp [plainChar, h]

theorem nameChar_ne_slash {c : Char} (h : nameChar c = true) : c ≠ '/' := by
  rintro rfl
  exact absurd h (by decide)

theorem identifier_names {o : List Char} (h : identifier o = true) : ∀ c ∈ o, nameChar c = true := by
  simp only [identifier, Bool.and_eq_true, List.all_eq_true] at h
  exact h.2

theorem identifier_noSlash {o : List Char} (h : identifier o = true) : '/' ∉ o :=
  fun hm => nameChar_ne_slash (identifier_names h _ hm) rfl

theorem relativeSegment_identifier {o : List Char} (h : identifier o = true) :
    relativeSegment o = false := by
  have hno := identifier_noSlash h
  simp only [identifier, Bool.and_eq_true, decide_eq_true_eq, ne_eq] at h
  simp [relativeSegment, List.splitOn_eq_singleton hno, h.1.1.1.2, h.1.1.2]

theorem encodePath_identifier {o : String} (h : identifier o.toList = true) : encodePath o = o :=
  encodePath_plain fun c hc => plainChar_of_name (identifier_names h c hc)

/-! ## What is accepted -/

structure PrAccepted (parseUrl : ParseUrl) (a : PrAddress) : Prop where
  host : IsHost parseUrl a.host
  owner : identifier a.owner.toList = true
  repo : identifier a.repo.toList = true
  positive : a.number ≠ 0
  bounded : a.number ≤ u64Max

theorem PrAddress.checked_ok {host : String} {owner repo n : List Char} {a : PrAddress}
    (hhost : IsHost parseUrl host) (h : PrAddress.checked host owner repo n = .ok a) :
    PrAccepted parseUrl a := by
  unfold PrAddress.checked at h
  split at h
  · cases h
  · rename_i hnames
    simp only [Bool.not_eq_true, not_or, Bool.not_eq_false] at hnames
    split at h
    · cases h
    · rename_i number hnumber
      split at h
      · cases h
      · rename_i hzero
        cases h
        exact ⟨hhost, by simpa using hnames.1, by simpa using hnames.2.1, hzero,
          parseU64_le hnumber⟩

theorem PrAddress.parse_ok (hurl : KeepsUrls parseUrl) {a : PrAddress}
    (h : PrAddress.parse parseUrl s = .ok a) : PrAccepted parseUrl a := by
  unfold PrAddress.parse at h
  dsimp only at h
  split at h
  · rename_i hstarts
    split at h
    · cases h
    · split at h
      · cases h
      · rename_i u hu
        unfold PrAddress.ofUrl at h
        split at h
        · cases h
        · split at h
          · cases h
          · rename_i host hhost
            have hhost : IsHost parseUrl host := .inr (.inr ⟨_, u, hstarts, hu, hhost⟩)
            split at h
            · split at h
              · cases h
              · rw [hurl.lowercase host hhost] at h
                exact PrAddress.checked_ok hhost h
            · cases h
  · unfold PrAddress.ofSlug at h
    split at h
    · cases h
    · split at h
      · cases h
      · exact PrAddress.checked_ok (.inl rfl) h

/-- The dots of a range. -/
def dots (direct : Bool) : List Char := if direct then ['.', '.'] else ['.', '.', '.']

theorem splitRange_eq {range base head : List Char} {direct : Bool}
    (h : splitRange range = some (base, head, direct)) : range = base ++ dots direct ++ head := by
  unfold splitRange at h
  split at h
  · rename_i hsplit
    cases h
    exact ((splitOnce_eq_some_iff (by simp)).mp hsplit).1
  · obtain ⟨⟨x, y⟩, hsplit, hr⟩ := Option.map_eq_some_iff.mp h
    cases hr
    exact ((splitOnce_eq_some_iff (by simp)).mp hsplit).1

structure CompareAccepted (parseUrl : ParseUrl) (a : CompareAddress) : Prop where
  host : IsHost parseUrl a.host
  owner : identifier a.owner.toList = true
  repo : identifier a.repo.toList = true
  range : splitRange (a.refs.base.toList ++ dots a.refs.direct ++ a.refs.head.toList) =
    some (a.refs.base.toList, a.refs.head.toList, a.refs.direct)
  base : refName (CompareAddress.sideName a.refs.base.toList) = true
  head : refName (CompareAddress.sideName a.refs.head.toList) = true

theorem CompareAddress.ofUrl_ok (hurl : KeepsUrls parseUrl) {u : Url} {a : CompareAddress}
    (hhost : ∀ host, u.host = some host → IsHost parseUrl host)
    (h : CompareAddress.ofUrl u = .ok a) : CompareAccepted parseUrl a := by
  unfold CompareAddress.ofUrl at h
  split at h
  · cases h
  · split at h
    · cases h
    · rename_i host hu
      split at h
      · split at h
        · cases h
        · rename_i hnames
          simp only [not_or, not_not] at hnames
          obtain ⟨range, -, h⟩ := ok_of_bind h
          split at h
          · cases h
          · rename_i base head direct hrange
            split at h
            · cases h
            · rename_i hrefs
              simp only [not_or, not_not] at hrefs
              cases h
              rw [hurl.lowercase host (hhost host hu)]
              refine ⟨hhost host hu, ?_, ?_, ?_, ?_, ?_⟩
              · simpa using hnames.2.1
              · simpa using hnames.2.2
              · simpa [splitRange_eq hrange] using hrange
              · simpa using hrefs.1
              · simpa using hrefs.2
      · cases h

/-- What a target has passed. -/
def TargetAccepted (parseUrl : ParseUrl) : Target → Prop
  | .pr a => PrAccepted parseUrl a
  | .compare a => CompareAccepted parseUrl a

theorem Target.parse_ok (hurl : KeepsUrls parseUrl) {a : Target}
    (h : Target.parse parseUrl s = .ok a) : TargetAccepted parseUrl a := by
  unfold Target.parse at h
  dsimp only at h
  split at h
  · rename_i hcompare
    rw [Bool.and_eq_true] at hcompare
    cases hc : CompareAddress.parse parseUrl (trim s) with
    | error e =>
      rw [hc] at h
      cases h
    | ok c =>
      rw [hc] at h
      cases h
      unfold CompareAddress.parse at hc
      dsimp only at hc
      split at hc
      · cases hc
      · split at hc
        · cases hc
        · rename_i u hu
          exact CompareAddress.ofUrl_ok hurl
            (fun host hhost => .inr (.inr ⟨_, u, by rw [trim_trim]; exact hcompare.1, hu, hhost⟩)) hc
  · cases hp : PrAddress.parse parseUrl (trim s) with
    | error e =>
      rw [hp] at h
      cases h
    | ok p =>
      rw [hp] at h
      cases h
      exact PrAddress.parse_ok hurl hp

/-! ## Sides of a range -/

/-- What the text of a side has, for the segments it is part of. -/
structure SideText (x : List Char) : Prop where
  opens : ∃ pre c post, x = pre ++ c :: post ∧ '/' ∉ pre ∧ c ≠ '/' ∧ c ≠ '.'
  noDot : ¬ ['/', '.'] <:+: x
  ends : x.getLast? ≠ some '/'

theorem refName_spec {x : List Char} (h : refName x = true) :
    x ≠ [] ∧ (∀ c ∈ x.head?, c ∉ ['-', '/', '.']) ∧ (∀ c ∈ x.getLast?, c ∉ ['/', '.']) ∧
      ¬ ['.', '.'] <:+: x ∧ ¬ ['/', '.'] <:+: x ∧ ':' ∉ x := by
  simp only [refName, Bool.and_eq_true, decide_eq_true_eq, Bool.not_eq_true', hasText,
    decide_eq_false_iff_not, List.any_eq_false, Option.any_eq_false, Bool.or_eq_true, not_or] at h
  obtain ⟨⟨⟨⟨⟨⟨⟨⟨⟨hne, -⟩, hhead⟩, hlast⟩, -⟩, hdots⟩, -⟩, -⟩, hslash⟩, hchars⟩ := h
  refine ⟨by simpa using hne, fun c hc => by simpa using hhead c hc,
    fun c hc => by simpa using hlast c hc, hdots, hslash, ?_⟩
  intro hm
  exact (hchars ':' hm).2 (by decide)

theorem SideText.of_refName {x : List Char} (h : refName x = true) : SideText x := by
  obtain ⟨hne, hhead, hlast, -, hslash, -⟩ := refName_spec h
  refine ⟨?_, hslash, fun hl => (hlast _ hl) (by simp)⟩
  cases x with
  | nil => exact absurd rfl hne
  | cons c x =>
    have hc := hhead c rfl
    simp only [List.mem_cons, List.not_mem_nil, or_false, not_or] at hc
    exact ⟨[], c, x, rfl, by simp, hc.2.1, hc.2.2⟩

theorem SideText.of_side {x : List Char} (h : refName (CompareAddress.sideName x) = true) :
    SideText x := by
  unfold CompareAddress.sideName at h
  split at h
  · exact .of_refName h
  · rename_i owner name hsplit
    split at h
    · rename_i howner
      obtain ⟨hne, -, hlast, -, hslash, -⟩ := refName_spec h
      have hx : x = owner ++ [':'] ++ name := ((splitOnce_eq_some_iff (by simp)).mp hsplit).1
      have hno := identifier_noSlash howner
      refine ⟨⟨owner, ':', name, by simp [hx], hno, by decide, by decide⟩, ?_, ?_⟩
      · rw [hx, List.append_assoc]
        intro hin
        rcases infix_append_cases hin with hin | hin | ⟨k, hk, hk', hsuf, -⟩
        · exact hno (hin.subset (by simp))
        · rw [List.singleton_append, List.infix_cons_iff] at hin
          rcases hin with hin | hin
          · simp at hin
          · exact hslash hin
        · -- The joint would have the slash before it.
          have hk1 : k = 1 := by simp only [List.length_cons, List.length_nil] at hk'; omega
          rw [hk1] at hsuf
          exact hno (hsuf.subset (by simp))
      · rw [hx, List.getLast?_append_of_ne_nil _ hne]
        exact fun hl => (hlast _ hl) (by simp)
    · exact absurd h (by decide)

theorem SideText.ne_nil {x : List Char} (h : SideText x) : x ≠ [] := by
  obtain ⟨pre, c, post, rfl, -⟩ := h.opens
  simp

/-- **A range of two sides has no relative segment.** -/
theorem relativeSegment_range {base head : List Char} (hbase : SideText base)
    (hhead : SideText head) (direct : Bool) :
    relativeSegment (base ++ dots direct ++ head) = false := by
  have hdots : ∀ c ∈ dots direct, c = '.' := by cases direct <;> simp [dots]
  have hnoDot : ¬ ['/', '.'] <:+: base ++ dots direct ++ head := by
    rw [List.append_assoc]
    intro hin
    rcases infix_append_cases hin with hin | hin | ⟨k, hk, hk', hsuf, -⟩
    · exact hbase.noDot hin
    · rcases infix_append_cases hin with hin | hin | ⟨k, hk, hk', hsuf, -⟩
      · exact absurd (hdots '/' (hin.subset (by simp))) (by decide)
      · exact hhead.noDot hin
      · have hk1 : k = 1 := by simp only [List.length_cons, List.length_nil] at hk'; omega
        rw [hk1] at hsuf
        exact absurd (hdots '/' (hsuf.subset (by simp))) (by decide)
    · have hk1 : k = 1 := by simp only [List.length_cons, List.length_nil] at hk'; omega
      rw [hk1] at hsuf
      obtain ⟨t, ht⟩ := hsuf
      exact hbase.ends (by simp [← ht])
  obtain ⟨pre, c, post, hopen, hpre, hslash, hdot⟩ := hbase.opens
  rw [hopen, List.append_assoc, List.append_assoc, List.cons_append] at hnoDot ⊢
  exact relativeSegment_eq_false hpre hslash hdot hnoDot

/-! ## Reading the reopened text -/

/-- The target has what was read from an address. -/
def Addressed (t : RemoteTarget) : Target → Prop
  | .pr a => t.repository.host = a.host ∧ t.repository.owner = a.owner ∧
      t.repository.name = a.repo ∧ t.pr = a.number ∧ t.compare = none
  | .compare a => t.repository.host = a.host ∧ t.repository.owner = a.owner ∧
      t.repository.name = a.repo ∧ t.compare = some a.refs

theorem toString_toList (n : Nat) : (toString n).toList = Nat.toDigits 10 n := by
  simp [toString, Nat.repr]

theorem digits_plain (n : Nat) : ∀ c ∈ Nat.toDigits 10 n, c.isDigit = true :=
  fun c hc => List.all_eq_true.mp (digits_all_isDigit n) c hc

theorem plainChar_of_digit {c : Char} (h : c.isDigit = true) : plainChar c := by
  simp [plainChar, nameChar, Char.isAlphanum, h]

/-- The path of a pull request. -/
def prPath (a : PrAddress) : String := a.owner ++ "/" ++ a.repo ++ "/pull/" ++ toString a.number

theorem prPath_plain {a : PrAddress} (ha : PrAccepted parseUrl a) :
    encodePath (prPath a) = prPath a := by
  refine encodePath_plain fun c hc => ?_
  simp only [prPath, String.toList_append, List.mem_append, toString_toList] at hc
  rcases hc with (((hc | hc) | hc) | hc) | hc
  · exact plainChar_of_name (identifier_names ha.owner c hc)
  · exact plain_of_all (by decide) c hc
  · exact plainChar_of_name (identifier_names ha.repo c hc)
  · exact plain_of_all (by decide) c hc
  · exact plainChar_of_digit (digits_plain _ c hc)

theorem reopenAddress_pr {t : RemoteTarget} {a : PrAddress} (ha : PrAccepted parseUrl a)
    (ht : Addressed t (.pr a)) : Github.reopenAddress t = reopenText a.host (prPath a) := by
  obtain ⟨hhost, howner, hname, hpr, hcompare⟩ := ht
  rw [reopenText, prPath_plain ha]
  simp only [reopenAddress, hcompare, hhost, howner, hname, hpr, prPath, String.append_assoc]

theorem prPath_toList (a : PrAddress) : (prPath a).toList =
    a.owner.toList ++ '/' :: (a.repo.toList ++ '/' :: ("pull".toList ++ '/' ::
      Nat.toDigits 10 a.number)) := by
  simp [prPath]

theorem slash_not_digit (n : Nat) : '/' ∉ Nat.toDigits 10 n :=
  fun hm => absurd (digits_plain n _ hm) (by decide)

theorem splitOn_prPath {a : PrAddress} (ha : PrAccepted parseUrl a) :
    (prPath a).toList.splitOn '/' =
      [a.owner.toList, a.repo.toList, "pull".toList, Nat.toDigits 10 a.number] := by
  rw [prPath_toList, List.splitOn_append_cons_self_of_not_mem (identifier_noSlash ha.owner),
    List.splitOn_append_cons_self_of_not_mem (identifier_noSlash ha.repo),
    List.splitOn_append_cons_self_of_not_mem (by decide),
    List.splitOn_eq_singleton (slash_not_digit _)]

theorem relativeSegment_digits (n : Nat) : relativeSegment (Nat.toDigits 10 n) = false := by
  rw [relativeSegment, List.splitOn_eq_singleton (slash_not_digit _)]
  have hne : ∀ l : List Char, '.' ∈ l → Nat.toDigits 10 n ≠ l := by
    rintro l hl rfl
    exact absurd (digits_plain _ _ hl) (by decide)
  simp [hne ['.'] (by simp), hne ['.', '.'] (by simp)]

theorem relativeSegment_prPath {a : PrAddress} (ha : PrAccepted parseUrl a) :
    relativeSegment (prPath a).toList = false := by
  rw [prPath_toList, relativeSegment_append, relativeSegment_append, relativeSegment_append,
    relativeSegment_identifier ha.owner, relativeSegment_identifier ha.repo,
    relativeSegment_digits]
  decide

theorem prPath_ends (a : PrAddress) : (prPath a).toList.getLast? ≠ some '/' := by
  rw [prPath, String.toList_append, toString_toList,
    List.getLast?_append_of_ne_nil _ Nat.toDigits_ne_nil]
  exact fun h => slash_not_digit _ (List.mem_of_getLast? h)

theorem prPath_ne_empty (a : PrAddress) : prPath a ≠ "" := by
  intro h
  have hnil := congrArg String.toList h
  rw [prPath_toList] at hnil
  simp at hnil

theorem checked_again {a : PrAddress} (ha : PrAccepted parseUrl a) :
    PrAddress.checked a.host a.owner.toList a.repo.toList (Nat.toDigits 10 a.number) = .ok a := by
  unfold PrAddress.checked
  have hdigits : (Nat.toDigits 10 a.number).all Char.isDigit = true := digits_all_isDigit _
  rw [if_neg (by rw [ha.owner, ha.repo, hdigits]; simp), parseU64_toDigits ha.bounded]
  simp [ha.positive]

/-- **A pull request is opened again**, if its host is not taken for a relative segment. -/
theorem parse_reopened_pr (hurl : KeepsUrls parseUrl) {a : PrAddress}
    (ha : PrAccepted parseUrl a) (hhost : relativeHost a.host = false) :
    Target.parse parseUrl (reopenText a.host (prPath a)) = .ok (.pr a) := by
  have htrim : trim (reopenText a.host (prPath a)) = reopenText a.host (prPath a) :=
    trim_reopenText (prPath_ne_empty a)
  have hparse := parseUrl_reopenText hurl ha.host (relativeSegment_prPath ha)
  have hsegments : (encodePath (prPath a)).toList.splitOn '/' =
      [a.owner.toList, a.repo.toList, "pull".toList, Nat.toDigits 10 a.number] := by
    rw [prPath_plain ha, splitOn_prPath ha]
  have hparts : (('/' :: (encodePath (prPath a)).toList).splitOn '/').drop 1 =
      [a.owner.toList, a.repo.toList, "pull".toList, Nat.toDigits 10 a.number] := by
    rw [List.splitOn_cons_eq_if_modifyHead, hsegments]
    rfl
  have hpr : PrAddress.parse parseUrl (reopenText a.host (prPath a)) = .ok a := by
    simp only [PrAddress.parse, htrim, startsWith_reopenText, if_true, hparse,
      relativeSegment_reopenText (hurl.noSlash _ ha.host), hhost, relativeSegment_prPath ha,
      Bool.or_self, Bool.false_eq_true, if_false]
    simp only [PrAddress.ofUrl, endTrimmed_bareUrl (prPath_ne_empty a) (prPath_ends a), hparts,
      bareUrl_hasAccess, bareUrl_query, bareUrl_host, hurl.lowercase _ ha.host, checked_again ha]
    rfl
  simp only [Target.parse, htrim, startsWith_reopenText, hparse, Option.bind_some,
    pathSegments_bareUrl, hsegments, hpr]
  rfl

/-- The range of a compare, as it was before it was split. -/
def rangeText (refs : CompareRefs) : String :=
  refs.base ++ String.ofList (dots refs.direct) ++ refs.head

theorem rangeText_toList (refs : CompareRefs) : (rangeText refs).toList =
    refs.base.toList ++ dots refs.direct ++ refs.head.toList := by
  simp [rangeText]

theorem rangeText_ne_nil {refs : CompareRefs} (hhead : SideText refs.head.toList) :
    (rangeText refs).toList ≠ [] := by
  rw [rangeText_toList]
  exact List.append_ne_nil_of_right_ne_nil _ hhead.ne_nil

theorem rangeText_ends {refs : CompareRefs} (hhead : SideText refs.head.toList) :
    (rangeText refs).toList.getLast? ≠ some '/' := by
  rw [rangeText_toList, List.getLast?_append_of_ne_nil _ hhead.ne_nil]
  exact hhead.ends

theorem encodePath_rangeText (refs : CompareRefs) : encodePath (rangeText refs) =
    encodePath refs.base ++ (if refs.direct then ".." else "...") ++ encodePath refs.head := by
  have hdots : encodePath (String.ofList (dots refs.direct)) =
      if refs.direct then ".." else "..." := by
    cases refs.direct
    · exact encodePath_plain (plain_of_all (by decide))
    · exact encodePath_plain (plain_of_all (by decide))
  rw [rangeText, encodePath_append, encodePath_append, hdots]

/-- The path of a compare. -/
def comparePath (a : CompareAddress) : String :=
  a.owner ++ "/" ++ a.repo ++ "/compare/" ++ rangeText a.refs

theorem encodePath_comparePath {a : CompareAddress} (ha : CompareAccepted parseUrl a) :
    encodePath (comparePath a) =
      a.owner ++ "/" ++ a.repo ++ "/compare/" ++ encodePath (rangeText a.refs) := by
  simp only [comparePath, encodePath_append, encodePath_identifier ha.owner,
    encodePath_identifier ha.repo]
  rw [encodePath_plain (s := "/") (plain_of_all (by decide)),
    encodePath_plain (s := "/compare/") (plain_of_all (by decide))]

theorem reopenAddress_compare {t : RemoteTarget} {a : CompareAddress}
    (ha : CompareAccepted parseUrl a) (ht : Addressed t (.compare a)) :
    Github.reopenAddress t = reopenText a.host (comparePath a) := by
  obtain ⟨hhost, howner, hname, hcompare⟩ := ht
  rw [reopenText, encodePath_comparePath ha, encodePath_rangeText]
  simp only [reopenAddress, hcompare, hhost, howner, hname, String.append_assoc]

theorem comparePath_toList {a : CompareAddress} : (comparePath a).toList =
    a.owner.toList ++ '/' :: (a.repo.toList ++ '/' :: ("compare".toList ++ '/' ::
      (rangeText a.refs).toList)) := by
  simp [comparePath]

theorem encoded_comparePath {a : CompareAddress} (ha : CompareAccepted parseUrl a) :
    (encodePath (comparePath a)).toList = a.owner.toList ++ '/' :: (a.repo.toList ++ '/' ::
      ("compare".toList ++ '/' :: (encodePath (rangeText a.refs)).toList)) := by
  rw [encodePath_comparePath ha]
  simp

theorem relativeSegment_comparePath {a : CompareAddress} (ha : CompareAccepted parseUrl a) :
    relativeSegment (comparePath a).toList = false := by
  rw [comparePath_toList, relativeSegment_append, relativeSegment_append, relativeSegment_append,
    relativeSegment_identifier ha.owner, relativeSegment_identifier ha.repo, rangeText_toList,
    relativeSegment_range (.of_side ha.base) (.of_side ha.head)]
  decide

theorem comparePath_ends {a : CompareAddress} (ha : CompareAccepted parseUrl a) :
    (comparePath a).toList.getLast? ≠ some '/' := by
  rw [comparePath, String.toList_append,
    List.getLast?_append_of_ne_nil _ (rangeText_ne_nil (.of_side ha.head))]
  exact rangeText_ends (.of_side ha.head)

theorem comparePath_ne_empty (a : CompareAddress) : comparePath a ≠ "" := by
  intro h
  have hnil := congrArg String.toList h
  rw [comparePath_toList] at hnil
  simp at hnil

theorem splitN_comparePath {owner repo kind range : List Char} (howner : '/' ∉ owner)
    (hrepo : '/' ∉ repo) (hkind : '/' ∉ kind) :
    (splitN '/' 5 ('/' :: (owner ++ '/' :: (repo ++ '/' :: (kind ++ '/' :: range))))).drop 1 =
      [owner, repo, kind, range] := by
  have hfirst : splitOnce ['/'] ('/' :: (owner ++ '/' :: (repo ++ '/' :: (kind ++ '/' :: range)))) =
      some ([], owner ++ '/' :: (repo ++ '/' :: (kind ++ '/' :: range))) :=
    splitOnce_singleton (a := []) (by simp)
  simp only [splitN, hfirst, splitOnce_singleton howner, splitOnce_singleton hrepo,
    splitOnce_singleton hkind, List.drop_succ_cons, List.drop_zero]

/-- **A compare is opened again**, if its host is not taken for a relative segment. -/
theorem parse_reopened_compare (hurl : KeepsUrls parseUrl) {a : CompareAddress}
    (ha : CompareAccepted parseUrl a) (hhost : relativeHost a.host = false) :
    Target.parse parseUrl (reopenText a.host (comparePath a)) = .ok (.compare a) := by
  have htrim : trim (reopenText a.host (comparePath a)) = reopenText a.host (comparePath a) :=
    trim_reopenText (comparePath_ne_empty a)
  have hparse := parseUrl_reopenText hurl ha.host (relativeSegment_comparePath ha)
  have howner := identifier_noSlash ha.owner
  have hrepo := identifier_noSlash ha.repo
  have hkind : ((encodePath (comparePath a)).toList.splitOn '/')[2]? = some "compare".toList := by
    rw [encoded_comparePath ha, List.splitOn_append_cons_self_of_not_mem howner,
      List.splitOn_append_cons_self_of_not_mem hrepo,
      List.splitOn_append_cons_self_of_not_mem (by decide)]
    rfl
  have hparts : (splitN '/' 5 ('/' :: (encodePath (comparePath a)).toList)).drop 1 =
      [a.owner.toList, a.repo.toList, "compare".toList,
        (encodePath (rangeText a.refs)).toList] := by
    rw [encoded_comparePath ha]
    exact splitN_comparePath howner hrepo (by decide)
  have hrange : splitRange (rangeText a.refs).toList =
      some (a.refs.base.toList, a.refs.head.toList, a.refs.direct) := by
    rw [rangeText_toList]
    exact ha.range
  have hcompare : CompareAddress.parse parseUrl (reopenText a.host (comparePath a)) = .ok a := by
    simp only [CompareAddress.parse, htrim, hparse,
      relativeSegment_reopenText (hurl.noSlash _ ha.host), hhost, relativeSegment_comparePath ha,
      Bool.or_self, Bool.false_eq_true, if_false]
    simp only [CompareAddress.ofUrl, bareUrl_scheme, bareUrl_hasAccess, bareUrl_queryPairs,
      bareUrl_host, endTrimmed_bareUrl (comparePath_ne_empty a) (comparePath_ends ha), hparts,
      ha.owner, ha.repo, hurl.lowercase _ ha.host, String.ofList_toList, decodePath_encodePath,
      ok_bind, hrange, ha.base, ha.head]
    rfl
  simp only [Target.parse, htrim, startsWith_reopenText, hparse, Option.bind_some,
    pathSegments_bareUrl, hkind, hcompare]
  rfl

/-- A text with a relative segment is refused. -/
theorem parse_relative (htrim : trim s = s) (hstarts : startsWith s.toList "https://" = true)
    (hrelative : relativeSegment s.toList = true) (a : Target) :
    Target.parse parseUrl s ≠ .ok a := by
  intro h
  simp only [Target.parse, CompareAddress.parse, PrAddress.parse, htrim, hstarts, hrelative,
    if_true] at h
  split at h
  · cases h
  · cases h

/-- The host of a target. -/
def Target.host : Target → String
  | .pr a => a.host
  | .compare a => a.host

/-- **GitHub addresses survive reopening**, unless their host is `.` or `..`. -/
theorem github_reopens_iff (hurl : KeepsUrls parseUrl) {a : Target} {t : RemoteTarget}
    (h : Target.parse parseUrl s = .ok a) (ht : Addressed t a) :
    Target.parse parseUrl (Github.reopenAddress t) = .ok a ↔
      relativeHost (Target.host a) = false := by
  have ha := Target.parse_ok hurl h
  cases a with
  | pr a =>
    rw [reopenAddress_pr ha ht]
    refine ⟨fun hok => ?_, parse_reopened_pr hurl ha⟩
    by_contra hhost
    refine parse_relative (trim_reopenText (prPath_ne_empty a)) startsWith_reopenText ?_ _ hok
    rw [relativeSegment_reopenText (hurl.noSlash _ ha.host)]
    simpa [Target.host] using Or.inl hhost
  | compare a =>
    rw [reopenAddress_compare ha ht]
    refine ⟨fun hok => ?_, parse_reopened_compare hurl ha⟩
    by_contra hhost
    refine parse_relative (trim_reopenText (comparePath_ne_empty a)) startsWith_reopenText ?_ _ hok
    rw [relativeSegment_reopenText (hurl.noSlash _ ha.host)]
    simpa [Target.host] using Or.inl hhost

/-- A target of an address on GitHub. -/
def addressedTarget (host : String) (compare : Option CompareRefs) : RemoteTarget :=
  { provider := .github, repository := ⟨host, 7, "o", "r"⟩, account := "alice", pr := 1,
    targetTip := "a1", comparisonBase := "b2", head := "c3", isOpen := true, draft := false,
    merged := false, pendingReview := false, compare, entire := none }

def forkCompare : CompareAddress := ⟨"github.com", "o", "r", ⟨"main", "alice:fix/1.0", false⟩⟩

/-- A head in a fork, with an encoded slash. -/
theorem forkCompare_reopens : Target.parse readPlainUrl
    (Github.reopenAddress (addressedTarget "github.com" (some forkCompare.refs))) =
      .ok (.compare forkCompare) :=
  (github_reopens_iff (s := "https://github.com/o/r/compare/main...alice%3Afix%2F1.0")
    (a := .compare forkCompare) readPlainUrl_keeps (by decide +kernel) ⟨rfl, rfl, rfl, rfl⟩).mpr
    (by decide)

theorem dotHost_not_reopened :
    Target.parse readPlainUrl "https://%2e/o/r/pull/1" = .ok (.pr ⟨".", "o", "r", 1⟩) ∧
      Addressed (addressedTarget "." none) (.pr ⟨".", "o", "r", 1⟩) ∧
      Target.parse readPlainUrl (Github.reopenAddress (addressedTarget "." none)) =
        .error "relative URL segments are not accepted as a PR identity" :=
  ⟨by decide +kernel, ⟨rfl, rfl, rfl, rfl, rfl⟩, by decide +kernel⟩

end Proof
end Diffz
