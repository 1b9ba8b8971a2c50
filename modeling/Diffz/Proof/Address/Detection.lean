import Diffz.App.Launch
import Diffz.Proof.Address.Shared

/-!
# Which provider a text is for

A text is taken by the parser of GitHub and by that of GitLab only if it is a URL with a path that
both of them read, and every such URL is taken twice. For all other texts the order in which the
parsers are tried does not matter.
-/

set_option autoImplicit false

namespace Diffz
namespace Proof

open Diffz.Proof.Gitlab (compareMark mergeMark)

variable {parseUrl : ParseUrl} {s : String} {u : Url}

/-! ## Pull requests -/

/-- The segments of the URL of a pull request. -/
structure PullSegments (segments : List (List Char)) (owner repo n : List Char)
    (tab : List (List Char)) : Prop where
  eq : segments = owner :: repo :: "pull".toList :: n :: tab
  owner : Github.identifier owner = true
  digits : n.all Char.isDigit = true
  tab : ∀ t ∈ tab, t ∈ ["files".toList, "commits".toList]

theorem pullSegments_of_isOk (h : (Github.PrAddress.ofUrl u).isOk = true) :
    ∃ owner repo n tab, PullSegments ((u.endTrimmed.splitOn '/').drop 1) owner repo n tab := by
  obtain ⟨a, h⟩ := ok_of_isOk h
  unfold Github.PrAddress.ofUrl at h
  split at h
  · cases h
  · split at h
    · cases h
    · split at h
      · rename_i owner repo kind n tab hparts
        split at h
        · cases h
        · rename_i hshape
          simp only [not_or, not_not, Bool.not_eq_true] at hshape
          unfold Github.PrAddress.checked at h
          split at h
          · cases h
          · rename_i hnames
            simp only [not_or, not_not] at hnames
            refine ⟨owner, repo, n, tab, by rw [hparts, hshape.2.1], hnames.1, hnames.2.2, ?_⟩
            intro t ht
            have htab := List.any_eq_false.mp hshape.2.2 t ht
            by_contra hcon
            simp only [List.mem_cons, List.not_mem_nil, or_false, not_or] at hcon
            exact htab (by simp only [ne_eq, hcon, not_false_eq_true, decide_true, Bool.and_self])
      · cases h

/-- The segments of the path, with no slash before them. -/
theorem trimmed_segments {owner repo n : List Char} {tab : List (List Char)}
    (h : PullSegments ((u.endTrimmed.splitOn '/').drop 1) owner repo n tab) :
    ∃ pre, pre.length ≤ 1 ∧
      u.trimmed.splitOn '/' = pre ++ owner :: repo :: "pull".toList :: n :: tab := by
  have hne : owner ≠ [] := by
    rintro rfl
    exact absurd h.owner (by decide)
  rw [trimmed_eq]
  have hparts := h.eq
  cases hend : u.endTrimmed with
  | nil =>
    rw [hend] at hparts
    cases hparts
  | cons c l =>
    rw [hend] at hparts
    by_cases hc : c = '/'
    · subst hc
      have hl : l.splitOn '/' = owner :: repo :: "pull".toList :: n :: tab := by
        rw [List.splitOn_cons_eq_if_modifyHead] at hparts
        exact hparts
      refine ⟨[], by simp, ?_⟩
      rw [List.dropWhile_cons_of_pos (by simp), List.nil_append, ← hl]
      congr 1
      cases l with
      | nil => rfl
      | cons d l =>
        refine List.dropWhile_cons_of_neg ?_
        intro hd
        rw [List.splitOn_cons_eq_if_modifyHead, if_pos (by simpa using hd)] at hl
        exact hne (List.cons.inj hl).1.symm
    · rw [List.dropWhile_cons_of_neg (by simpa using hc)]
      cases hs : (c :: l).splitOn '/' with
      | nil => exact absurd hs (List.splitOn_ne_nil _ _)
      | cons x rest =>
        rw [hs, List.drop_succ_cons, List.drop_zero] at hparts
        exact ⟨[x], by simp, by rw [hparts]; rfl⟩

/-- **A pull request on GitHub is nothing on GitLab**: it has no segment for the dash before a
separator. -/
theorem pull_not_project {owner repo n project y : List Char} {tab : List (List Char)}
    (h : PullSegments ((u.endTrimmed.splitOn '/').drop 1) owner repo n tab)
    (hproject : Gitlab.validProject project = true)
    (hpath : u.trimmed = project ++ '/' :: '-' :: '/' :: y)
    (hy : (y.splitOn '/').head? ≠ some "pull".toList) : False := by
  obtain ⟨pre, hpre, hsegments⟩ := trimmed_segments h
  have hdash : ('-' :: '/' :: y).splitOn '/' = ['-'] :: y.splitOn '/' :=
    List.splitOn_append_cons_self_of_not_mem (show '/' ∉ ['-'] by decide) y
  rw [hpath, List.splitOn_append_cons_self, hdash] at hsegments
  have hlong : 2 ≤ (project.splitOn '/').length := by
    simp only [Gitlab.validProject, Bool.and_eq_true, decide_eq_true_eq] at hproject
    exact hproject.1
  have hn : n ≠ ['-'] := by
    rintro rfl
    exact absurd h.digits (by decide)
  have htab : ['-'] ∉ tab := fun hm => absurd (h.tab _ hm) (by decide)
  have hlater : ∀ more, more ++ ['-'] :: y.splitOn '/' ≠ "pull".toList :: n :: tab := by
    intro more heq
    have hmem : ['-'] ∈ "pull".toList :: n :: tab := by
      rw [← heq]
      simp
    simp only [List.mem_cons] at hmem
    rcases hmem with hmem | hmem | hmem
    · exact absurd hmem (by decide)
    · exact hn hmem.symm
    · exact htab hmem
  cases hp : project.splitOn '/' with
  | nil => exact List.splitOn_ne_nil _ _ hp
  | cons p₁ more =>
    cases more with
    | nil =>
      rw [hp] at hlong
      simp at hlong
    | cons p₂ more =>
      rw [hp, List.cons_append, List.cons_append] at hsegments
      cases pre with
      | nil =>
        exact hlater more (List.cons.inj (List.cons.inj hsegments).2).2
      | cons x pre =>
        obtain rfl : pre = [] := by simpa using hpre
        have hrest := (List.cons.inj (List.cons.inj hsegments).2).2
        cases more with
        | nil =>
          rw [(List.cons.inj hrest).2] at hy
          exact hy rfl
        | cons m more => exact hlater more (List.cons.inj hrest).2

theorem splitOn_head {c : Char} {l : List Char} (hc : c ≠ '/') (hp : c ≠ 'p') :
    ((c :: l).splitOn '/').head? ≠ some "pull".toList := by
  rw [List.splitOn_cons_eq_if_modifyHead, if_neg (by simpa using hc)]
  cases hs : l.splitOn '/' with
  | nil => exact absurd hs (List.splitOn_ne_nil _ _)
  | cons q qs =>
    intro h
    exact hp (List.cons.inj (Option.some.inj h)).1

theorem project_of_isOk (h : (Gitlab.CompareAddress.ofUrl u).isOk = true) :
    ∃ project tail, u.trimmed = project ++ compareMark ++ tail ∧
      Gitlab.validProject project = true := by
  obtain ⟨a, h⟩ := ok_of_isOk h
  unfold Gitlab.CompareAddress.ofUrl at h
  split at h
  · cases h
  · split at h
    · cases h
    · rename_i project tail hsplit
      obtain ⟨⟨base, head, direct, id⟩, -, h⟩ := ok_of_bind h
      dsimp only at h
      split at h
      · cases h
      · rename_i hproject
        exact ⟨project, tail, ((splitOnce_eq_some_iff (by decide)).mp hsplit).1,
          by simpa using hproject⟩

theorem pull_not_compare (h : (Github.PrAddress.ofUrl u).isOk = true) :
    (Gitlab.CompareAddress.ofUrl u).isOk = false := by
  rw [Bool.eq_false_iff]
  intro h'
  obtain ⟨owner, repo, n, tab, hparts⟩ := pullSegments_of_isOk h
  obtain ⟨project, tail, hpath, hproject⟩ := project_of_isOk h'
  refine pull_not_project (y := "compare".toList ++ tail) hparts hproject ?_
    (splitOn_head (by decide) (by decide))
  rw [hpath]
  simp [compareMark]

theorem pull_not_mr (h : (Github.PrAddress.ofUrl u).isOk = true) :
    (Gitlab.MrAddress.ofUrl u).isOk = false := by
  rw [Bool.eq_false_iff]
  intro h'
  obtain ⟨owner, repo, n, tab, hparts⟩ := pullSegments_of_isOk h
  obtain ⟨project, number, suffix, hreads⟩ := MrReads.of_isOk h'
  refine pull_not_project (y := mergeMark.drop 3 ++ (number ++ suffix)) hparts hreads.project ?_
    (splitOn_head (by decide) (by decide))
  rw [hreads.path]
  simp [mergeMark]

/-- The short forms have different signs before the number. -/
theorem slug_once {value : List Char} (h : (Github.PrAddress.ofSlug value).isOk = true) :
    (Gitlab.MrAddress.ofSlug value).isOk = false := by
  obtain ⟨a, h⟩ := ok_of_isOk h
  unfold Github.PrAddress.ofSlug at h
  split at h
  · cases h
  · rename_i slug n hslug
    split at h
    · cases h
    · rename_i owner repo hrepo
      unfold Github.PrAddress.checked at h
      split at h
      · cases h
      · rename_i hnames
        simp only [not_or, not_not] at hnames
        have hvalue := ((splitOnce_eq_some_iff (by simp)).mp hslug).1
        have hsplit := ((splitOnce_eq_some_iff (by simp)).mp hrepo).1
        have hmark : '!' ∉ value := by
          have howner : '!' ∉ owner := fun hm => absurd (identifier_names hnames.1 _ hm) (by decide)
          have hrepo : '!' ∉ repo := fun hm => absurd (identifier_names hnames.2.1 _ hm) (by decide)
          have hn : '!' ∉ n :=
            fun hm => absurd (List.all_eq_true.mp hnames.2.2 _ hm) (by decide)
          rw [hvalue, hsplit]
          simp [howner, hrepo, hn]
        have hnone : rsplitOnce ['!'] value = none := by
          rw [rsplitOnce, Option.map_eq_none_iff, splitOnce_eq_none_iff (by simp)]
          exact fun hin => hmark (by simpa using hin.subset (by simp : '!' ∈ ['!'].reverse))
        rw [Gitlab.MrAddress.ofSlug, hnone]
        rfl

/-! ## Texts -/

/-- A text that `GithubTarget::parse` takes. -/
inductive GithubTakes (parseUrl : ParseUrl) (s : String) : Prop
  | compare (u : Url) (starts : startsWith (trim s).toList "https://" = true)
      (relative : relativeSegment (trim s).toList = false) (read : parseUrl (trim s) = some u)
      (kind : u.pathSegments.bind (·[2]?) = some "compare".toList)
      (ok : (Github.CompareAddress.ofUrl u).isOk = true)
  | pull (u : Url) (starts : startsWith (trim s).toList "https://" = true)
      (read : parseUrl (trim s) = some u) (ok : (Github.PrAddress.ofUrl u).isOk = true)
  | slug (starts : startsWith (trim s).toList "https://" = false)
      (ok : (Github.PrAddress.ofSlug (trim s).toList).isOk = true)

theorem isOk_map {ε α β : Type} (x : Except ε α) (f : α → β) : (x.map f).isOk = x.isOk := by
  cases x <;> rfl

theorem GithubTakes.of_isOk (h : (Github.Target.parse parseUrl s).isOk = true) :
    GithubTakes parseUrl s := by
  unfold Github.Target.parse at h
  dsimp only at h
  split at h
  · rename_i hcompare
    rw [Bool.and_eq_true, decide_eq_true_eq] at hcompare
    rw [isOk_map, Github.CompareAddress.parse, trim_trim] at h
    split at h
    · cases h
    · rename_i hrelative
      split at h
      · cases h
      · rename_i u hu
        refine .compare u hcompare.1 (by simpa using hrelative) hu ?_ h
        simpa [hu] using hcompare.2
  · rw [isOk_map, Github.PrAddress.parse, trim_trim] at h
    split at h
    · rename_i hstarts
      split at h
      · cases h
      · split at h
        · cases h
        · rename_i u hu
          exact .pull u hstarts hu h
    · rename_i hstarts
      exact .slug (by simpa using hstarts) h

/-- A text that `GitlabTarget::parse` takes. -/
inductive GitlabTakes (parseUrl : ParseUrl) (s : String) : Prop
  | compare (u : Url) (starts : startsWith (trim s).toList "https://" = true)
      (read : parseUrl (trim s) = some u) (kind : Gitlab.isCompare u = true)
      (ok : (Gitlab.CompareAddress.ofUrl u).isOk = true)
  | mr (u : Url) (starts : startsWith (trim s).toList "https://" = true)
      (read : parseUrl (trim s) = some u) (kind : Gitlab.isCompare u = false)
      (ok : (Gitlab.MrAddress.ofUrl u).isOk = true)
  | slug (starts : startsWith (trim s).toList "https://" = false)
      (ok : (Gitlab.MrAddress.ofSlug (trim s).toList).isOk = true)

theorem GitlabTakes.of_isOk (h : (Gitlab.Target.parse parseUrl s).isOk = true) :
    GitlabTakes parseUrl s := by
  unfold Gitlab.Target.parse at h
  dsimp only at h
  split at h
  · rename_i hcompare
    rw [Bool.and_eq_true] at hcompare
    rw [isOk_map, Gitlab.CompareAddress.parse, trim_trim] at h
    split at h
    · cases h
    · split at h
      · cases h
      · rename_i u hu
        exact .compare u hcompare.1 hu (by simpa [hu] using hcompare.2) h
  · rename_i hcompare
    rw [isOk_map, Gitlab.MrAddress.parse, trim_trim] at h
    split at h
    · rename_i hstarts
      split at h
      · cases h
      · split at h
        · cases h
        · rename_i u hu
          exact .mr u hstarts hu (by simpa [hstarts, hu] using hcompare) h
    · rename_i hstarts
      exact .slug (by simpa using hstarts) h

theorem compareKind_path (h : u.pathSegments.bind (·[2]?) = some "compare".toList) :
    u.path.toList.head? = some '/' := by
  obtain ⟨segments, hsegments, -⟩ := Option.bind_eq_some_iff.mp h
  obtain ⟨rest, hrest, -⟩ := Option.map_eq_some_iff.mp hsegments
  rw [stripPrefix_eq_some hrest]
  rfl

/-- Both parsers take the text. -/
def TakenTwice (parseUrl : ParseUrl) (s : String) : Prop :=
  (Github.Target.parse parseUrl s).isOk = true ∧ (Gitlab.Target.parse parseUrl s).isOk = true

/-- The text is a URL with a path that both providers read. -/
def Shared (parseUrl : ParseUrl) (s : String) : Prop :=
  ∃ u, PlainAddress parseUrl s u ∧ SharedPath u

theorem shared_of_takenTwice (h : TakenTwice parseUrl s) : Shared parseUrl s := by
  have hboth := GitlabTakes.of_isOk h.2
  cases GithubTakes.of_isOk h.1 with
  | compare u starts relative read kind ok =>
    have hpath := compareKind_path kind
    obtain ⟨owner, repo, range, base, head, direct, hreads⟩ := githubReads_of_isOk hpath ok
    have hplain : PlainAddress parseUrl s u :=
      ⟨starts, relative, read, hreads.scheme, hreads.access, hreads.host⟩
    cases hboth with
    | compare v _ read' _ ok' =>
      obtain rfl : u = v := Option.some.inj (read.symm.trans read')
      obtain ⟨project, range', base', head', direct', hreads'⟩ :=
        GitlabReads.of_isOk hreads.pairs ok'
      exact ⟨u, hplain, comparePath_of_both hreads hreads'⟩
    | mr v _ read' kind' ok' =>
      obtain rfl : u = v := Option.some.inj (read.symm.trans read')
      obtain ⟨project, n, tab, hreads'⟩ := MrReads.of_isOk ok'
      exact ⟨u, hplain, mrPath_of_both hreads hreads' kind'⟩
    | slug starts' _ =>
      rw [starts] at starts'
      cases starts'
  | pull u starts read ok =>
    exfalso
    cases hboth with
    | compare v _ read' _ ok' =>
      obtain rfl : u = v := Option.some.inj (read.symm.trans read')
      rw [pull_not_compare ok] at ok'
      cases ok'
    | mr v _ read' _ ok' =>
      obtain rfl : u = v := Option.some.inj (read.symm.trans read')
      rw [pull_not_mr ok] at ok'
      cases ok'
    | slug starts' _ =>
      rw [starts] at starts'
      cases starts'
  | slug starts ok =>
    exfalso
    cases hboth with
    | compare v starts' _ _ _ =>
      rw [starts] at starts'
      cases starts'
    | mr v starts' _ _ _ =>
      rw [starts] at starts'
      cases starts'
    | slug _ ok' =>
      rw [slug_once ok] at ok'
      cases ok'

/-! ## From the shared path to both -/

theorem pathSegments_rangePath {owner repo x : List Char} (howner : '/' ∉ owner)
    (hrepo : '/' ∉ repo) (h : u.endTrimmed = '/' :: rangePath owner repo x) :
    u.pathSegments.bind (·[2]?) = some "compare".toList := by
  obtain ⟨t, ht⟩ := List.rdropWhile_prefix (· = '/') (l := u.path.toList)
  have hpath : u.path.toList = ['/'] ++ rangePath owner repo (x ++ t) := by
    rw [← ht, show u.path.toList.rdropWhile (· = '/') = u.endTrimmed from rfl, h]
    simp [rangePath]
  rw [Url.pathSegments, hpath, stripPrefix_append, rangePath, Option.map_some,
    List.splitOn_append_cons_self_of_not_mem howner,
    List.splitOn_append_cons_self_of_not_mem hrepo,
    List.splitOn_append_cons_self_of_not_mem (by decide)]
  rfl

theorem github_takes {owner repo range base head : List Char} {direct : Bool}
    (hplain : PlainAddress parseUrl s u) (h : GithubReads u owner repo range base head direct) :
    (Github.Target.parse parseUrl s).isOk = true := by
  have hkind := pathSegments_rangePath (identifier_noSlash h.owner) (identifier_noSlash h.repo)
    h.path
  have hcompare : (startsWith (trim s).toList "https://" &&
      (((parseUrl (trim s)).bind Url.pathSegments).bind (·[2]?) = some "compare".toList)) =
        true := by
    rw [hplain.starts, hplain.read, Option.bind_some, hkind]
    simp
  rw [Github.Target.parse, if_pos hcompare, isOk_map, Github.CompareAddress.parse, trim_trim,
    if_neg (by simp [hplain.relative]), hplain.read]
  exact h.isOk

theorem gitlab_takes_compare {project range base head : List Char} {direct : Bool}
    (hplain : PlainAddress parseUrl s u) (h : GitlabReads u project range base head direct)
    (hkind : Gitlab.isCompare u = true) : (Gitlab.Target.parse parseUrl s).isOk = true := by
  have hcompare : (startsWith (trim s).toList "https://" &&
      (parseUrl (trim s)).any Gitlab.isCompare) = true := by
    rw [hplain.starts, hplain.read, Option.any_some, hkind]
    rfl
  rw [Gitlab.Target.parse, if_pos hcompare, isOk_map, Gitlab.CompareAddress.parse, trim_trim,
    if_neg (by simp [hplain.relative]), hplain.read]
  exact h.isOk

theorem gitlab_takes_mr {project n tab : List Char} (hplain : PlainAddress parseUrl s u)
    (h : MrReads u project n tab) (hkind : Gitlab.isCompare u = false) :
    (Gitlab.Target.parse parseUrl s).isOk = true := by
  have hcompare : ¬ (startsWith (trim s).toList "https://" &&
      (parseUrl (trim s)).any Gitlab.isCompare) = true := by
    rw [hplain.read, Option.any_some, hkind]
    simp
  rw [Gitlab.Target.parse, if_neg hcompare, isOk_map, Gitlab.MrAddress.parse, trim_trim,
    if_pos hplain.starts, if_neg (by simp [hplain.relative]), hplain.read]
  exact h.isOk

/-- What ends in a slash ends before the last one, or at it. -/
theorem infix_before_slash {p l t : List Char} (ht : '/' ∉ t)
    (h : p ++ ['/'] <:+: l ++ '/' :: t) : p ++ ['/'] <:+: l ∨ p <:+ l := by
  obtain ⟨pre, post, h⟩ := h
  have h : pre ++ p ++ '/' :: post = l ++ '/' :: t := by simpa using h
  rcases List.append_eq_append_iff.mp h with ⟨m, hl, hm⟩ | ⟨m, hl, hm⟩
  · cases m with
    | nil => exact .inr ⟨pre, by simpa using hl.symm⟩
    | cons c m =>
      obtain ⟨rfl, rfl⟩ := List.cons.inj hm
      exact .inl ⟨pre, m, by simp [hl]⟩
  · cases m with
    | nil => exact .inr ⟨pre, by simpa using hl⟩
    | cons c m =>
      obtain ⟨rfl, rfl⟩ := List.cons.inj hm
      exact absurd (by simp) ht

theorem compareMark_not_digits {l n : List Char} (hn : n.all Char.isDigit = true) (hne : n ≠ []) :
    ¬ compareMark <:+ l ++ n := by
  rintro ⟨t, ht⟩
  have hlast := congrArg List.getLast? ht
  rw [List.getLast?_append_of_ne_nil _ (by decide), List.getLast?_append_of_ne_nil _ hne] at hlast
  exact absurd (List.all_eq_true.mp hn _ (List.mem_of_getLast? hlast.symm)) (by decide)

/-- The path of a merge request has the separator of a compare only in its project. -/
theorem isCompare_mrPath {project n tab : List Char} (hpath : u.endTrimmed =
      '/' :: (project ++ mergeMark ++ (n ++ tab))) (hn : n.all Char.isDigit = true) (hne : n ≠ [])
    (htab : tab ∈ tabs) (hproject : ¬ compareMark ++ ['/'] <:+: '/' :: project ++ ['/']) :
    Gitlab.isCompare u = false := by
  have hlist : u.endTrimmed = ('/' :: project ++ mergeMark) ++ n ++ tab := by
    rw [hpath]
    simp
  have hnumber : ¬ compareMark <:+ ('/' :: project ++ mergeMark) ++ n :=
    compareMark_not_digits hn hne
  have hbefore : ¬ compareMark ++ ['/'] <:+: ('/' :: project ++ mergeMark) ++ n := fun hin =>
    hproject (Gitlab.compare_before_merge (Gitlab.infix_noSlash (digits_noSlash hn) hin))
  have hnot : ¬ compareMark <:+ u.endTrimmed ∧ ¬ compareMark ++ ['/'] <:+: u.endTrimmed := by
    rw [hlist]
    rcases List.mem_cons.mp htab with rfl | htab
    · rw [List.append_nil]
      exact ⟨hnumber, hbefore⟩
    · obtain ⟨t, ht, rfl⟩ := List.mem_map.mp htab
      refine ⟨?_, fun hin => ?_⟩
      · rintro ⟨pre, hpre⟩
        have htne : t ≠ [] := by
          rintro rfl
          exact absurd ht (by decide)
        have hlast := congrArg List.getLast? hpre
        rw [List.getLast?_append_of_ne_nil _ (by decide),
          List.getLast?_append_of_ne_nil _ (by simp), List.getLast?_cons_of_ne_nil htne] at hlast
        have htabs : ∀ t ∈ tabNames, compareMark.getLast? ≠ t.getLast? := by decide
        exact htabs t ht hlast
      · rcases infix_before_slash (tabNames_noSlash t ht) hin with hin | hsuf
        · exact hbefore hin
        · exact hnumber hsuf
  rw [Gitlab.isCompare, Gitlab.compareMark_eq, hasText, Gitlab.compareMark_slash,
    decide_eq_false hnot.2, Bool.or_false, Bool.eq_false_iff]
  exact fun h => hnot.1 (List.isSuffixOf_iff_suffix.mp h)

theorem parseU64_ne_nil {n : List Char} {k : Nat} (h : parseU64 n = some k) : n ≠ [] := by
  rintro rfl
  have hnone : parseU64 [] = none := by decide
  rw [hnone] at h
  cases h

theorem MrPath.both {owner repo base head n tab : List Char} {direct : Bool}
    (h : MrPath u owner repo base head n tab direct) (hplain : PlainAddress parseUrl s u) :
    TakenTwice parseUrl s := by
  obtain ⟨k, hk, hzero⟩ := h.number
  have hproject := Gitlab.project_plain h.project
  have hrest := number_plain h.digits h.suffix
  have hcolon := (refName_spec h.base).2.2.2.2.2
  have hcolon' := (refName_spec h.head).2.2.2.2.2
  have hgithub : GithubReads u owner repo (base ++ dots direct ++ (head ++ mergeMark ++ (n ++ tab)))
      base (head ++ mergeMark ++ (n ++ tab)) direct :=
    { scheme := hplain.scheme, access := hplain.access, pairs := h.pairs, host := hplain.host
      path := h.path, owner := h.owner, repo := h.repo
      text := by
        refine decodePath_plain fun c hc => ?_
        have hc : c ∈ (base ++ dots direct ++ head) ++ (mergeMark ++ (n ++ tab)) := by
          simpa using hc
        rcases List.mem_append.mp hc with hc | hc
        · exact hproject c (rangePath_append owner repo [] _ ▸ List.mem_append_right _ hc)
        · exact (hrest c hc).1
      split := Gitlab.splitRange_refs h.base h.head direct
      base := by rw [sideName_self hcolon]; exact h.base
      head := by rw [sideName_self hcolon']; exact h.head }
  have hpath : u.endTrimmed = '/' ::
      (rangePath owner repo (base ++ dots direct ++ head) ++ mergeMark ++ (n ++ tab)) := by
    rw [h.path]
    simp [rangePath]
  have hmr : MrReads u (rangePath owner repo (base ++ dots direct ++ head)) n tab :=
    { access := hplain.access, query := h.query, host := hplain.host
      path := by
        rw [hgithub.trimmed]
        simp [rangePath]
      first := by
        rw [Gitlab.first_merge]
        simpa using h.separator.merge
      tab := h.suffix, project := h.project, digits := h.digits, number := ⟨k, hk, hzero⟩ }
  have hkind := isCompare_mrPath hpath h.digits (parseU64_ne_nil hk) h.suffix
    (by simpa using h.separator.compare)
  exact ⟨github_takes hplain hgithub, gitlab_takes_mr hplain hmr hkind⟩

theorem ComparePath.both {owner repo x range base head : List Char} {direct : Bool}
    (h : ComparePath u owner repo x range base head direct) (hplain : PlainAddress parseUrl s u) :
    TakenTwice parseUrl s := by
  have hprefix : ∀ c ∈ x ++ compareMark ++ ['/'], plainChar c := by
    intro c hc
    rw [List.append_assoc, List.mem_append] at hc
    rcases hc with hc | hc
    · exact Gitlab.project_plain h.project c (by simp [rangePath, hc])
    · exact Gitlab.compareMark_plain c hc
  have hcolon := (refName_spec h.long).2.2.2.2.2
  have hcolon' := (refName_spec h.head).2.2.2.2.2
  have hgithub : GithubReads u owner repo (x ++ compareMark ++ '/' :: range)
      (x ++ compareMark ++ '/' :: base) head direct :=
    { scheme := hplain.scheme, access := hplain.access
      pairs := by rw [h.pairs]; rfl
      host := hplain.host, path := h.path, owner := h.owner, repo := h.repo
      text := by
        have hdecode := decodePath_append hprefix range
        rw [h.text] at hdecode
        simpa [Except.map] using hdecode
      split := Gitlab.splitRange_refs h.long h.head direct
      base := by rw [sideName_self hcolon]; exact h.long
      head := by rw [sideName_self hcolon']; exact h.head }
  have hgitlab : GitlabReads u (rangePath owner repo x) range base head direct :=
    { scheme := hplain.scheme, access := hplain.access, pairs := h.pairs, host := hplain.host
      path := by
        rw [hgithub.trimmed]
        simp [rangePath]
      first := h.first, project := h.project, text := h.text, base := h.base, head := h.head }
  have hkind : Gitlab.isCompare u = true := by
    have hin : compareMark ++ ['/'] <:+: u.endTrimmed := by
      rw [h.path]
      exact ⟨'/' :: rangePath owner repo x, range, by simp [rangePath]⟩
    simp [Gitlab.isCompare, hasText, Gitlab.compareMark_slash, hin]
  exact ⟨github_takes hplain hgithub, gitlab_takes_compare hplain hgitlab hkind⟩

theorem takenTwice_iff : TakenTwice parseUrl s ↔ Shared parseUrl s := by
  refine ⟨shared_of_takenTwice, ?_⟩
  rintro ⟨u, hplain, ⟨_, _, _, _, _, _, _, h⟩ | ⟨_, _, _, _, _, _, _, h⟩⟩
  · exact h.both hplain
  · exact h.both hplain

/-! ## The order of the parsers -/

def githubLabel : Except String Github.Target → Option String
  | .ok (.pr _) => some "GitHub pull request"
  | .ok (.compare _) => some "GitHub compare"
  | .error _ => none

def gitlabLabel : Except String Gitlab.Target → Option String
  | .ok (.mr _) => some "GitLab merge request"
  | .ok (.compare _) => some "GitLab compare"
  | .error _ => none

/-- What the parser of a provider sees in a text. -/
def recognized (parseUrl : ParseUrl) (input : String) (provider : ProviderId) :
    Option (ProviderId × String) :=
  if provider = .github then (githubLabel (Github.Target.parse parseUrl input)).map (provider, ·)
  else (gitlabLabel (Gitlab.Target.parse parseUrl input)).map (provider, ·)

/-- The provider of a text, by the first parser of an order that takes it. -/
def detectIn (parseUrl : ParseUrl) (order : List ProviderId) (input : String) :
    Option (ProviderId × String) :=
  order.findSome? (recognized parseUrl input)

/-- The provider of a compare, by the first parser of an order that takes it as one. -/
def compareIn (parseUrl : ParseUrl) (order : List ProviderId) (input : String) :
    Option ProviderId :=
  order.find? fun provider =>
    if provider = .github then (App.githubCompare (Github.Target.parse parseUrl input)).isSome
    else (App.gitlabCompare (Gitlab.Target.parse parseUrl input)).isSome

/-- The two orders. -/
def orders : List (List ProviderId) := [[.github, .gitlab], [.gitlab, .github]]

/-- The provider of a text does not depend on the order: for `detect_source`, and for
`compare_request` where it takes the text. -/
def OrderFree (parseUrl : ParseUrl) (s : String) : Prop :=
  ∀ order ∈ orders, detectIn parseUrl order s = detectProvider parseUrl s ∧
    ∀ provider, App.compareProvider (Github.Target.parse parseUrl s)
        (Gitlab.Target.parse parseUrl s) = .ok provider →
      compareIn parseUrl order s = some provider

theorem gitlab_ne_github : ProviderId.gitlab ≠ ProviderId.github := by decide

/-- `detect_source` tries GitHub first. -/
theorem detectProvider_eq : detectProvider parseUrl s = detectIn parseUrl [.github, .gitlab] s := by
  unfold detectProvider detectIn
  simp only [List.findSome?_cons, List.findSome?_nil, recognized, if_true,
    if_neg gitlab_ne_github]
  cases Github.Target.parse parseUrl s with
  | ok a => cases a <;> rfl
  | error e =>
    cases Gitlab.Target.parse parseUrl s with
    | ok b => cases b <;> rfl
    | error e' => rfl

theorem githubLabel_error {x : Except String Github.Target} (h : ¬ x.isOk = true) :
    githubLabel x = none ∧ App.githubCompare x = none := by
  cases x with
  | error e => exact ⟨rfl, rfl⟩
  | ok a => exact absurd rfl h

theorem gitlabLabel_error {x : Except String Gitlab.Target} (h : ¬ x.isOk = true) :
    gitlabLabel x = none ∧ App.gitlabCompare x = none := by
  cases x with
  | error e => exact ⟨rfl, rfl⟩
  | ok a => exact absurd rfl h

/-- What `compare_request` settles on is a compare of the provider. -/
theorem compareProvider_ok {github : Except String Github.Target}
    {gitlab : Except String Gitlab.Target} {provider : ProviderId}
    (h : App.compareProvider github gitlab = .ok provider) :
    (provider = .github ∧ (App.githubCompare github).isSome = true) ∨
      (provider = .gitlab ∧ (App.githubCompare github).isSome = false ∧
        (App.gitlabCompare gitlab).isSome = true) := by
  unfold App.compareProvider at h
  split at h
  · cases h
  · split at h
    · rename_i hgithub
      cases h
      exact .inl ⟨rfl, hgithub⟩
    · rename_i hgithub
      split at h
      · rename_i hgitlab
        cases h
        exact .inr ⟨rfl, by simpa using hgithub, hgitlab⟩
      · split at h <;> cases h

theorem orderFree_of_once (h : ¬ TakenTwice parseUrl s) : OrderFree parseUrl s := by
  -- One of the parsers fails, so the order does not matter to what the other says.
  have honce : ¬ (Github.Target.parse parseUrl s).isOk = true ∨
      ¬ (Gitlab.Target.parse parseUrl s).isOk = true := not_and_or.mp h
  intro order horder
  simp only [orders, List.mem_cons, List.not_mem_nil, or_false] at horder
  rw [detectProvider_eq]
  constructor
  · rcases horder with rfl | rfl
    · rfl
    · simp only [detectIn, List.findSome?_cons, List.findSome?_nil, recognized, if_true,
        if_neg gitlab_ne_github]
      rcases honce with hgithub | hgitlab
      · rw [(githubLabel_error hgithub).1]
        cases gitlabLabel (Gitlab.Target.parse parseUrl s) <;> rfl
      · rw [(gitlabLabel_error hgitlab).1]
        cases githubLabel (Github.Target.parse parseUrl s) <;> rfl
  · intro provider hprovider
    rcases compareProvider_ok hprovider with ⟨rfl, hgithub⟩ | ⟨rfl, hgithub, hgitlab⟩
    · rcases horder with rfl | rfl
      · simp [compareIn, hgithub]
      · have hnone : App.gitlabCompare (Gitlab.Target.parse parseUrl s) = none := by
          rcases honce with hnot | hnot
          · rw [(githubLabel_error hnot).2] at hgithub
            cases hgithub
          · exact (gitlabLabel_error hnot).2
        simp [compareIn, hgithub, hnone, gitlab_ne_github]
    · rcases horder with rfl | rfl
      · simp [compareIn, hgithub, hgitlab, gitlab_ne_github]
      · simp [compareIn, hgitlab, gitlab_ne_github]

/-- **Provider detection is unambiguous**, unless the path of the text reads as a range of a
repository on GitHub and as a project on GitLab. -/
theorem detection_unambiguous_iff :
    ¬ TakenTwice parseUrl s ∧ OrderFree parseUrl s ↔ ¬ Shared parseUrl s := by
  rw [← takenTwice_iff]
  exact ⟨And.left, fun h => ⟨h, orderFree_of_once h⟩⟩

theorem sharedMr_taken_twice :
    Github.Target.parse readPlainUrl "https://h/o/r/compare/x...y/-/merge_requests/5" =
        .ok (.compare ⟨"h", "o", "r", ⟨"x", "y/-/merge_requests/5", false⟩⟩) ∧
      Gitlab.Target.parse readPlainUrl "https://h/o/r/compare/x...y/-/merge_requests/5" =
        .ok (.mr ⟨"h", "o/r/compare/x...y", 5⟩) :=
  ⟨by decide +kernel, by decide +kernel⟩

end Proof
end Diffz
