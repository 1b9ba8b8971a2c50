import Diffz.Proof.Address.Gitlab

/-!
# Paths that two providers read

The range of a compare on GitHub may have slashes, and a project on GitLab may have any number of
segments. `SharedPath` is how a path reads that is a range and has a project and its separator in
it. The readings of the two providers are stated first (`GithubReads`, `MrReads`, `GitlabReads`);
a path that has two of them is a shared one.
-/

set_option autoImplicit false

namespace Diffz
namespace Proof

open Diffz.Proof.Gitlab (compareMark mergeMark NoSeparator)

variable {parseUrl : ParseUrl} {s : String} {u : Url}

/-! ## Slashes -/

/-- Where the first slash of a text is the end of its first segment. -/
theorem split_slash {a x p y : List Char} (ha : '/' ∉ a) (h : a ++ '/' :: x = p ++ '/' :: y) :
    (p = a ∧ x = y) ∨ ∃ q, p = a ++ '/' :: q ∧ x = q ++ '/' :: y := by
  rcases List.append_eq_append_iff.mp h with ⟨m, rfl, hm⟩ | ⟨m, rfl, hm⟩
  · cases m with
    | nil =>
      left
      simpa using hm
    | cons c m =>
      obtain ⟨rfl, rfl⟩ := List.cons.inj hm
      exact .inr ⟨m, rfl, rfl⟩
  · cases m with
    | nil =>
      left
      simpa using hm.symm
    | cons c m =>
      obtain ⟨rfl, -⟩ := List.cons.inj hm
      exact absurd (by simp) ha

theorem trimmed_eq (u : Url) : u.trimmed = u.endTrimmed.dropWhile (· = '/') :=
  dropWhile_rdropWhile _ _

theorem trimmed_of_endTrimmed {l : List Char} (h : u.endTrimmed = '/' :: l)
    (hhead : l.head? ≠ some '/') : u.trimmed = l := by
  rw [trimmed_eq, h, List.dropWhile_cons_of_pos (by simp)]
  cases l with
  | nil => rfl
  | cons c l => exact List.dropWhile_cons_of_neg (by simpa using hhead)

theorem splitN_five {l owner repo kind range : List Char}
    (h : (splitN '/' 5 l).drop 1 = [owner, repo, kind, range]) :
    ∃ x, l = x ++ '/' :: (owner ++ '/' :: (repo ++ '/' :: (kind ++ '/' :: range))) ∧ '/' ∉ x := by
  have hcut : ∀ {n : Nat} {l a : List Char} {rest : List (List Char)},
      splitN '/' (n + 2) l = a :: rest → rest ≠ [] →
        ∃ b, l = a ++ '/' :: b ∧ '/' ∉ a ∧ splitN '/' (n + 1) b = rest := by
    intro n l a rest hl hrest
    rw [splitN] at hl
    split at hl
    · cases hl
      exact absurd rfl hrest
    · rename_i b hsplit
      cases hl
      obtain ⟨hl, hfirst⟩ := (splitOnce_eq_some_iff (by simp)).mp hsplit
      refine ⟨b, by simpa using hl, ?_, rfl⟩
      intro hmem
      obtain ⟨pre, post, hpre⟩ := List.append_of_mem hmem
      exact hfirst ⟨pre, post, by simp [hpre]⟩
  cases hs : splitN '/' 5 l with
  | nil =>
    rw [hs] at h
    cases h
  | cons x rest =>
    rw [hs, List.drop_succ_cons, List.drop_zero] at h
    subst h
    obtain ⟨b₁, rfl, hx, h₁⟩ := hcut hs (by simp)
    obtain ⟨b₂, rfl, -, h₂⟩ := hcut h₁ (by simp)
    obtain ⟨b₃, rfl, -, h₃⟩ := hcut h₂ (by simp)
    obtain ⟨b₄, rfl, -, h₄⟩ := hcut h₃ (by simp)
    have hlast : b₄ = range := (List.cons.inj h₄).1
    exact ⟨x, by rw [hlast], hx⟩

/-! ## What each parser reads -/

/-- A URL of a compare on GitHub. -/
structure GithubReads (u : Url) (owner repo range base head : List Char) (direct : Bool) :
    Prop where
  scheme : u.scheme = "https"
  access : u.hasAccess = false
  pairs : u.queryPairs.all Github.CompareAddress.isToggle = true
  host : u.host.isSome = true
  path : u.endTrimmed =
    '/' :: (owner ++ '/' :: (repo ++ '/' :: ("compare".toList ++ '/' :: range)))
  owner : Github.identifier owner = true
  repo : Github.identifier repo = true
  text : Github.decodePath range = .ok (base ++ dots direct ++ head)
  split : splitRange (base ++ dots direct ++ head) = some (base, head, direct)
  base : Github.refName (Github.CompareAddress.sideName base) = true
  head : Github.refName (Github.CompareAddress.sideName head) = true

theorem endTrimmed_begins (hpath : u.path.toList.head? = some '/') {x l : List Char}
    (h : u.endTrimmed = x ++ '/' :: l) (hx : '/' ∉ x) : x = [] := by
  obtain ⟨t, ht⟩ := List.rdropWhile_prefix (· = '/') (l := u.path.toList)
  cases x with
  | nil => rfl
  | cons c x =>
    have hc : u.path.toList.head? = some c := by
      rw [← ht, show u.path.toList.rdropWhile (· = '/') = u.endTrimmed from rfl, h]
      rfl
    rw [hpath] at hc
    rw [← Option.some.inj hc] at hx
    exact absurd List.mem_cons_self hx

theorem githubReads_of_isOk (hpath : u.path.toList.head? = some '/')
    (h : (Github.CompareAddress.ofUrl u).isOk = true) :
    ∃ owner repo range base head direct, GithubReads u owner repo range base head direct := by
  obtain ⟨a, h⟩ := ok_of_isOk h
  unfold Github.CompareAddress.ofUrl at h
  split at h
  · cases h
  · rename_i hurl
    simp only [not_or, not_not, Bool.not_eq_true] at hurl
    split at h
    · cases h
    · rename_i host hu
      split at h
      · rename_i owner repo kind range hparts
        split at h
        · cases h
        · rename_i hnames
          simp only [not_or, not_not] at hnames
          obtain ⟨text, htext, h⟩ := ok_of_bind h
          split at h
          · cases h
          · rename_i base head direct hrange
            split at h
            · cases h
            · rename_i hrefs
              simp only [not_or, not_not] at hrefs
              obtain ⟨x, hx, hnot⟩ := splitN_five hparts
              obtain rfl := endTrimmed_begins hpath hx hnot
              have hjoined := splitRange_eq hrange
              exact ⟨owner, repo, range, base, head, direct,
                { scheme := hurl.1, access := hurl.2.1
                  pairs := by
                    have hpairs := hurl.2.2
                    rw [List.any_eq_false] at hpairs
                    rw [List.all_eq_true]
                    intro pair hpair
                    simpa using hpairs pair hpair
                  host := by rw [hu]; rfl
                  path := by rw [hx, hnames.1]; rfl
                  owner := hnames.2.1, repo := hnames.2.2
                  text := by rw [htext, hjoined]
                  split := by rw [← hjoined, hrange]
                  base := hrefs.1, head := hrefs.2 }⟩
      · cases h

theorem GithubReads.isOk {owner repo range base head : List Char} {direct : Bool}
    (h : GithubReads u owner repo range base head direct) :
    (Github.CompareAddress.ofUrl u).isOk = true := by
  obtain ⟨host, hhost⟩ := Option.isSome_iff_exists.mp h.host
  have hparts : (splitN '/' 5 u.endTrimmed).drop 1 = [owner, repo, "compare".toList, range] := by
    rw [h.path]
    exact splitN_comparePath (identifier_noSlash h.owner) (identifier_noSlash h.repo) (by decide)
  have hpairs : u.queryPairs.any (! Github.CompareAddress.isToggle ·) = false := by
    rw [List.any_eq_false]
    intro pair hpair
    simpa using List.all_eq_true.mp h.pairs pair hpair
  simp only [Github.CompareAddress.ofUrl, h.scheme, h.access, hpairs, hhost, hparts, h.owner,
    h.repo, h.text, ok_bind, h.split, h.base, h.head]
  rfl

/-- The tabs of the page of a merge request. -/
def tabNames : List (List Char) := ["diffs".toList, "commits".toList, "pipelines".toList]

/-- What may follow the number. -/
def tabs : List (List Char) := [] :: tabNames.map ('/' :: ·)

/-- A URL of a merge request. -/
structure MrReads (u : Url) (project n tab : List Char) : Prop where
  access : u.hasAccess = false
  query : u.query = none
  host : u.host.isSome = true
  path : u.trimmed = project ++ mergeMark ++ (n ++ tab)
  first : ¬ mergeMark <:+: project ++ mergeMark.dropLast
  tab : tab ∈ tabs
  project : Gitlab.validProject project = true
  digits : n.all Char.isDigit = true
  number : ∃ k, parseU64 n = some k ∧ k ≠ 0

theorem join_splitOn (l : List Char) : ['/'].intercalate (l.splitOn '/') = l :=
  List.intercalate_splitOn _

theorem MrReads.of_isOk (h : (Gitlab.MrAddress.ofUrl u).isOk = true) :
    ∃ project n tab, MrReads u project n tab := by
  obtain ⟨a, h⟩ := ok_of_isOk h
  unfold Gitlab.MrAddress.ofUrl at h
  split at h
  · cases h
  · rename_i hurl
    simp only [not_or, Bool.not_eq_true, Option.isSome_eq_false_iff, Option.isNone_iff_eq_none]
      at hurl
    split at h
    · cases h
    · rename_i project tail hsplit
      obtain ⟨hpath, hfirst⟩ := (splitOnce_eq_some_iff (by decide)).mp hsplit
      dsimp only at h
      split at h
      · cases h
      · rename_i hsuffix
        simp only [not_or, Bool.not_eq_true] at hsuffix
        split at h
        · cases h
        · rename_i host hu
          unfold Gitlab.MrAddress.checked at h
          split at h
          · cases h
          · rename_i hnames
            simp only [not_or, not_not] at hnames
            split at h
            · cases h
            · rename_i k hk
              split at h
              · cases h
              · rename_i hzero
                have hjoin := join_splitOn tail
                have hreads : ∀ n tab, tail = n ++ tab → tab ∈ tabs →
                    (tail.splitOn '/').headD [] = n → MrReads u project n tab := by
                  intro n tab htail htab hn
                  rw [hn] at hnames hk
                  exact ⟨hurl.1, hurl.2, by rw [hu]; rfl, by rw [hpath, htail]; rfl, hfirst, htab,
                    hnames.1, hnames.2, k, hk, hzero⟩
                cases hparts : tail.splitOn '/' with
                | nil => exact absurd hparts (List.splitOn_ne_nil _ _)
                | cons n rest =>
                  rw [hparts] at hsuffix hjoin hreads
                  cases rest with
                  | nil =>
                    exact ⟨project, n, [], hreads n [] (by simpa using hjoin.symm)
                      List.mem_cons_self rfl⟩
                  | cons t rest =>
                    cases rest with
                    | cons t' rest => simp at hsuffix
                    | nil =>
                      refine ⟨project, n, '/' :: t, hreads n ('/' :: t) ?_ ?_ rfl⟩
                      · rw [← hjoin]
                        simp
                      · have ht : decide (t ∉ tabNames) = false := hsuffix.1
                        have hmem : t ∈ tabNames := not_not.mp (of_decide_eq_false ht)
                        exact List.mem_cons_of_mem _ (List.mem_map_of_mem hmem)

theorem tabNames_noSlash : ∀ t ∈ tabNames, '/' ∉ t := by decide

theorem tabs_splitOn {n tab : List Char} (hn : '/' ∉ n) (htab : tab ∈ tabs) :
    (n ++ tab).splitOn '/' = [n] ∨ ∃ t ∈ tabNames, (n ++ tab).splitOn '/' = [n, t] := by
  rcases List.mem_cons.mp htab with rfl | htab
  · left
    rw [List.append_nil, List.splitOn_eq_singleton hn]
  · right
    obtain ⟨t, ht, rfl⟩ := List.mem_map.mp htab
    refine ⟨t, ht, ?_⟩
    rw [List.splitOn_append_cons_self_of_not_mem hn,
      List.splitOn_eq_singleton (tabNames_noSlash t ht)]

theorem digits_noSlash {n : List Char} (h : n.all Char.isDigit = true) : '/' ∉ n :=
  fun hm => absurd (List.all_eq_true.mp h _ hm) (by decide)

theorem MrReads.isOk {project n tab : List Char} (h : MrReads u project n tab) :
    (Gitlab.MrAddress.ofUrl u).isOk = true := by
  obtain ⟨host, hhost⟩ := Option.isSome_iff_exists.mp h.host
  obtain ⟨k, hk, hzero⟩ := h.number
  have hsplit : splitOnce mergeMark u.trimmed = some (project, n ++ tab) :=
    (splitOnce_eq_some_iff (by decide)).mpr ⟨h.path, h.first⟩
  have hparts := tabs_splitOn (digits_noSlash h.digits) h.tab
  have hsuffix : ¬ ((((n ++ tab).splitOn '/')[1]?.any fun p => p ∉ tabNames) = true ∨
      ((n ++ tab).splitOn '/')[2]?.isSome = true) := by
    rcases hparts with hparts | ⟨t, ht, hparts⟩
    · rw [hparts]
      simp
    · rw [hparts]
      simp [ht]
  have hhead : ((n ++ tab).splitOn '/').headD [] = n := by
    rcases hparts with hparts | ⟨t, -, hparts⟩
    · rw [hparts]
      rfl
    · rw [hparts]
      rfl
  have hchecked : (Gitlab.MrAddress.checked host project n).isOk = true := by
    rw [Gitlab.MrAddress.checked, if_neg (by simp [h.project, h.digits]), hk]
    simp [hzero, Except.isOk, Except.toBool]
  rw [Gitlab.MrAddress.ofUrl, if_neg (by simp [h.access, h.query]), Gitlab.mergeMark_eq, hsplit]
  refine (congrArg Except.isOk (if_neg hsuffix)).trans ?_
  rw [hhost, hhead]
  exact hchecked

/-- A URL of a compare on GitLab, with the refs in its path. -/
structure GitlabReads (u : Url) (project range base head : List Char) (direct : Bool) : Prop where
  scheme : u.scheme = "https"
  access : u.hasAccess = false
  pairs : u.queryPairs = []
  host : u.host.isSome = true
  path : u.trimmed = project ++ compareMark ++ '/' :: range
  first : ¬ compareMark <:+: project ++ compareMark.dropLast
  project : Gitlab.validProject project = true
  text : Github.decodePath range = .ok (base ++ dots direct ++ head)
  base : Github.refName base = true
  head : Github.refName head = true

/-- The view toggles of GitHub are no query that a compare on GitLab may have. -/
theorem pathQuery_toggles {pairs : List (String × String)} {id : Option Nat}
    {straight : Option Bool} {r : Option Nat × Option Bool}
    (hpairs : pairs.all Github.CompareAddress.isToggle = true)
    (h : Gitlab.CompareAddress.pathQuery id straight pairs = .ok r) : pairs = [] := by
  cases pairs with
  | nil => rfl
  | cons pair pairs =>
    have htoggle : pair ∈ [("expand", "1"), ("diff", "split"), ("diff", "unified"), ("w", "1")] := by
      simpa [Github.CompareAddress.isToggle] using List.all_eq_true.mp hpairs pair (by simp)
    simp only [List.mem_cons, List.not_mem_nil, or_false] at htoggle
    rcases htoggle with rfl | rfl | rfl | rfl <;> simp [Gitlab.CompareAddress.pathQuery] at h

theorem refsQuery_toggles {pairs : List (String × String)} {g g' : Gitlab.CompareAddress.Gathered}
    (hpairs : pairs.all Github.CompareAddress.isToggle = true)
    (h : Gitlab.CompareAddress.refsQuery g pairs = .ok g') : g' = g := by
  cases pairs with
  | nil =>
    cases h
    rfl
  | cons pair pairs =>
    have htoggle : pair ∈ [("expand", "1"), ("diff", "split"), ("diff", "unified"), ("w", "1")] := by
      simpa [Github.CompareAddress.isToggle] using List.all_eq_true.mp hpairs pair (by simp)
    simp only [List.mem_cons, List.not_mem_nil, or_false] at htoggle
    rcases htoggle with rfl | rfl | rfl | rfl <;> simp [Gitlab.CompareAddress.refsQuery] at h

theorem GitlabReads.of_isOk (hpairs : u.queryPairs.all Github.CompareAddress.isToggle = true)
    (h : (Gitlab.CompareAddress.ofUrl u).isOk = true) :
    ∃ project range base head direct, GitlabReads u project range base head direct := by
  obtain ⟨a, h⟩ := ok_of_isOk h
  unfold Gitlab.CompareAddress.ofUrl at h
  split at h
  · cases h
  · rename_i hurl
    simp only [not_or, not_not, Bool.not_eq_true] at hurl
    split at h
    · cases h
    · rename_i project tail hsplit
      obtain ⟨hpath, hfirst⟩ := (splitOnce_eq_some_iff (by decide)).mp hsplit
      obtain ⟨⟨base, head, direct, id⟩, hrefs, h⟩ := ok_of_bind h
      dsimp only at h
      split at h
      · cases h
      · rename_i hproject
        split at h
        · cases h
        · rename_i hnames
          simp only [not_or, not_not] at hnames hproject
          split at h
          · cases h
          · rename_i host hu
            unfold Gitlab.CompareAddress.urlRefs at hrefs
            split at hrefs
            · -- Without a path the refs are in the query, where the toggles leave none.
              obtain ⟨g, hg, hrefs⟩ := ok_of_bind hrefs
              rw [refsQuery_toggles hpairs hg] at hrefs
              cases hrefs
            · split at hrefs
              · cases hrefs
              · rename_i range hrange
                obtain ⟨q, hq, hrefs⟩ := ok_of_bind hrefs
                obtain ⟨text, htext, hrefs⟩ := ok_of_bind hrefs
                split at hrefs
                · cases hrefs
                · rename_i base' head' direct' htwo
                  split at hrefs
                  · cases hrefs
                  · cases hrefs
                    have htail := stripPrefix_eq_some hrange
                    exact ⟨project, range, base, head, direct,
                      { scheme := hurl.1, access := hurl.2
                        pairs := pathQuery_toggles hpairs hq
                        host := by rw [hu]; rfl
                        path := by rw [hpath, htail]; rfl
                        first := hfirst, project := hproject
                        text := by rw [htext, splitRange_eq htwo]
                        base := hnames.1, head := hnames.2 }⟩

theorem GitlabReads.isOk {project range base head : List Char} {direct : Bool}
    (h : GitlabReads u project range base head direct) :
    (Gitlab.CompareAddress.ofUrl u).isOk = true := by
  obtain ⟨host, hhost⟩ := Option.isSome_iff_exists.mp h.host
  have hsplit : splitOnce compareMark u.trimmed = some (project, '/' :: range) :=
    (splitOnce_eq_some_iff (by decide)).mpr ⟨h.path, h.first⟩
  have htail : stripPrefix ['/'] ('/' :: range) = some range := stripPrefix_append ['/'] _
  have hrefs : Gitlab.CompareAddress.urlRefs u ('/' :: range) = .ok (base, head, direct, none) := by
    simp only [Gitlab.CompareAddress.urlRefs, htail, h.pairs, Gitlab.CompareAddress.pathQuery,
      ok_bind, h.text, Gitlab.splitRange_refs h.base h.head]
    rfl
  rw [Gitlab.CompareAddress.ofUrl, if_neg (by simp [h.scheme, h.access]), Gitlab.compareMark_eq,
    hsplit]
  dsimp only
  rw [hrefs, ok_bind]
  dsimp only
  rw [if_neg (by simp [h.project]), if_neg (by simp [h.base, h.head]), hhost]
  rfl

/-! ## The path of both -/

/-- The path of a range on GitHub, up to a place in the range. -/
def rangePath (owner repo x : List Char) : List Char :=
  owner ++ '/' :: (repo ++ '/' :: ("compare".toList ++ '/' :: x))

theorem rangePath_append (owner repo x y : List Char) :
    rangePath owner repo x ++ y = rangePath owner repo (x ++ y) := by
  simp [rangePath]

theorem single_invalid {p : List Char} (h : '/' ∉ p) : Gitlab.validProject p = false := by
  simp [Gitlab.validProject, List.splitOn_eq_singleton h]

/-- A project that is the beginning of the path of a range ends in the range. -/
theorem project_in_range {owner repo range project y : List Char}
    (howner : '/' ∉ owner) (hrepo : '/' ∉ repo) (hproject : Gitlab.validProject project = true)
    (hdash : ∀ l, range ≠ '-' :: '/' :: l)
    (h : rangePath owner repo range = project ++ '/' :: '-' :: '/' :: y) :
    ∃ x, project = rangePath owner repo x ∧ range = x ++ '/' :: '-' :: '/' :: y := by
  rcases split_slash howner h with ⟨rfl, -⟩ | ⟨p₁, rfl, h₁⟩
  · rw [single_invalid howner] at hproject
    cases hproject
  rcases split_slash hrepo h₁ with ⟨-, h₂⟩ | ⟨p₂, rfl, h₂⟩
  · cases h₂
  rcases split_slash (by decide) h₂ with ⟨-, h₃⟩ | ⟨x, rfl, h₃⟩
  · exact absurd h₃ (hdash y)
  · exact ⟨x, rfl, h₃⟩

/-- A side of a range does not begin with a segment that is a dash. -/
theorem sideName_dash (l : List Char) :
    Github.refName (Github.CompareAddress.sideName ('-' :: '/' :: l)) = false := by
  rw [Bool.eq_false_iff]
  intro h
  unfold Github.CompareAddress.sideName at h
  split at h
  · exact absurd ((refName_spec h).2.1 '-' rfl) (by simp)
  · rename_i owner name hsplit
    split at h
    · rename_i howner
      have heq := ((splitOnce_eq_some_iff (by simp)).mp hsplit).1
      have hno := identifier_noSlash howner
      cases owner with
      | nil => exact absurd howner (by decide)
      | cons c owner =>
        cases owner with
        | nil => simp at heq
        | cons d owner =>
          simp only [List.cons_append, List.cons.injEq] at heq
          rw [← heq.2.1] at hno
          exact hno (by simp)
    · exact absurd h (by decide)

theorem GithubReads.range_ne {owner repo range base head : List Char} {direct : Bool}
    (h : GithubReads u owner repo range base head direct) (l : List Char) :
    range ≠ '-' :: '/' :: l := by
  rintro rfl
  have htext := h.text
  rw [decodePath_cons (by decide), decodePath_cons (by decide)] at htext
  obtain ⟨t, ht, heq⟩ := ok_of_map htext
  obtain ⟨t', -, rfl⟩ := ok_of_map ht
  have hbase : ∃ l, base = '-' :: '/' :: l := by
    have hdots : ∃ rest, dots direct = '.' :: rest := by cases direct <;> exact ⟨_, rfl⟩
    obtain ⟨rest, hrest⟩ := hdots
    rw [hrest] at heq
    cases base with
    | nil => simp at heq
    | cons c base =>
      cases base with
      | nil => simp at heq
      | cons d base =>
        simp only [List.cons_append, List.cons.injEq] at heq
        exact ⟨base, by rw [← heq.1, ← heq.2.1]⟩
  obtain ⟨l, rfl⟩ := hbase
  have hside := h.base
  rw [sideName_dash] at hside
  cases hside

/-- The URL of a merge request whose project goes on from a repository into a range of refs. -/
structure MrPath (u : Url) (owner repo base head n tab : List Char) (direct : Bool) : Prop where
  query : u.query = none
  pairs : u.queryPairs.all Github.CompareAddress.isToggle = true
  path : u.endTrimmed = '/' :: rangePath owner repo
    (base ++ dots direct ++ (head ++ mergeMark ++ (n ++ tab)))
  project : Gitlab.validProject (rangePath owner repo (base ++ dots direct ++ head)) = true
  separator : NoSeparator (String.ofList (rangePath owner repo (base ++ dots direct ++ head)))
  digits : n.all Char.isDigit = true
  number : ∃ k, parseU64 n = some k ∧ k ≠ 0
  suffix : tab ∈ tabs
  owner : Github.identifier owner = true
  repo : Github.identifier repo = true
  base : Github.refName base = true
  head : Github.refName (head ++ mergeMark ++ (n ++ tab)) = true

/-- The URL of a compare whose project goes on from a repository into a range of refs. -/
structure ComparePath (u : Url) (owner repo x range base head : List Char) (direct : Bool) :
    Prop where
  pairs : u.queryPairs = []
  path : u.endTrimmed = '/' :: rangePath owner repo (x ++ compareMark ++ '/' :: range)
  project : Gitlab.validProject (rangePath owner repo x) = true
  first : ¬ compareMark <:+: rangePath owner repo x ++ compareMark.dropLast
  text : Github.decodePath range = .ok (base ++ dots direct ++ head)
  owner : Github.identifier owner = true
  repo : Github.identifier repo = true
  long : Github.refName (x ++ compareMark ++ '/' :: base) = true
  base : Github.refName base = true
  head : Github.refName head = true

/-- A path that both providers read. -/
def SharedPath (u : Url) : Prop :=
  (∃ owner repo base head n tab direct, MrPath u owner repo base head n tab direct) ∨
    ∃ owner repo x range base head direct, ComparePath u owner repo x range base head direct

/-- A URL of a host and a path. -/
structure PlainAddress (parseUrl : ParseUrl) (s : String) (u : Url) : Prop where
  starts : startsWith (trim s).toList "https://" = true
  relative : relativeSegment (trim s).toList = false
  read : parseUrl (trim s) = some u
  scheme : u.scheme = "https"
  access : u.hasAccess = false
  host : u.host.isSome = true

/-! ## From both to the shared path -/

theorem rangePath_head {owner repo x : List Char} (h : Github.identifier owner = true) :
    (rangePath owner repo x).head? ≠ some '/' := by
  have hno := identifier_noSlash h
  cases owner with
  | nil => exact absurd h (by decide)
  | cons c owner =>
    intro hc
    have hc : c = '/' := Option.some.inj hc
    exact hno (by simp [hc])

theorem GithubReads.trimmed {owner repo range base head : List Char} {direct : Bool}
    (h : GithubReads u owner repo range base head direct) :
    u.trimmed = rangePath owner repo range :=
  trimmed_of_endTrimmed h.path (rangePath_head h.owner)

theorem sideName_self {x : List Char} (h : ':' ∉ x) : Github.CompareAddress.sideName x = x := by
  have hnone : splitOnce [':'] x = none := by
    rw [splitOnce_eq_none_iff (by simp)]
    exact fun hin => h (hin.subset (by simp))
  rw [Github.CompareAddress.sideName, hnone]

theorem plainChar_ne_colon {l : List Char} (h : ∀ c ∈ l, plainChar c) : ':' ∉ l :=
  fun hm => absurd (h _ hm) (by decide)

theorem dots_mem {c : Char} {direct : Bool} (h : c ∈ dots direct) : c = '.' := by
  cases direct <;> simpa [dots] using h

theorem dots_ne_nil (direct : Bool) : dots direct ≠ [] := by
  cases direct <;> simp [dots]

theorem dots_two (direct : Bool) (l : List Char) : ['.', '.'] <:+: dots direct ++ l := by
  cases direct
  · exact ⟨[], '.' :: l, rfl⟩
  · exact ⟨[], l, rfl⟩

/-- Two ways to split a text at the dots are one, where the sides have none. -/
theorem range_unique {base head base' head' : List Char} {direct direct' : Bool}
    (h : base ++ (dots direct ++ head) = base' ++ (dots direct' ++ head'))
    (hbase : ¬ ['.', '.'] <:+: base) (hlast : base.getLast? ≠ some '.')
    (hlast' : base'.getLast? ≠ some '.') (hhead : ¬ ['.', '.'] <:+: head)
    (hfirst : head.head? ≠ some '.') (hfirst' : head'.head? ≠ some '.') :
    base = base' ∧ direct = direct' ∧ head = head' := by
  -- What one base has more than the other would end in a dot, or hold the dots of the other.
  have hend : ∀ {m x rest : List Char} {direct : Bool}, m ≠ [] → dots direct = m ++ rest →
      (x ++ m).getLast? = some '.' := by
    intro m x rest direct hm hdots
    obtain ⟨c, hc⟩ := Option.isSome_iff_exists.mp (by simpa using hm : m.getLast?.isSome = true)
    rw [List.getLast?_append_of_ne_nil _ hm, hc]
    have hmem : c ∈ dots direct := by
      rw [hdots]
      exact List.mem_append_left _ (List.mem_of_getLast? hc)
    rw [dots_mem hmem]
  have hbases : base = base' := by
    rcases List.append_eq_append_iff.mp h with ⟨m, hm, hrest⟩ | ⟨m, hm, hrest⟩
    · by_cases hnil : m = []
      · simpa [hnil] using hm.symm
      · exfalso
        rcases List.append_eq_append_iff.mp hrest with ⟨k, hk, hk'⟩ | ⟨k, hk, hk'⟩
        · -- The base of the second has the dots of the first, so the first head has its dots.
          exact hhead (hk' ▸ (dots_two direct' head').trans ⟨k, [], by simp⟩)
        · exact hlast' (hm ▸ hend hnil hk)
    · by_cases hnil : m = []
      · simpa [hnil] using hm
      · exfalso
        rcases List.append_eq_append_iff.mp hrest with ⟨k, hk, hk'⟩ | ⟨k, hk, hk'⟩
        · refine hbase (hm ▸ ?_)
          rw [hk]
          exact (dots_two direct' k).trans ⟨base', [], by simp⟩
        · exact hlast (hm ▸ hend hnil hk)
  subst hbases
  refine ⟨rfl, ?_⟩
  have htail := List.append_cancel_left h
  cases direct with
  | false =>
    cases direct' with
    | false => exact ⟨rfl, List.append_cancel_left htail⟩
    | true =>
      have htail : ['.', '.'] ++ '.' :: head = ['.', '.'] ++ head' := htail
      have hdot : '.' :: head = head' := List.append_cancel_left htail
      exact absurd (by rw [← hdot]; rfl) hfirst'
  | true =>
    cases direct' with
    | false =>
      have htail : ['.', '.'] ++ head = ['.', '.'] ++ '.' :: head' := htail
      have hdot : head = '.' :: head' := List.append_cancel_left htail
      exact absurd (by rw [hdot]; rfl) hfirst
    | true => exact ⟨rfl, List.append_cancel_left htail⟩

/-- **A compare of both.** The range of the one is the end of the project, the separator and the
refs of the other. -/
theorem comparePath_of_both {owner repo range base head project range' base' head' : List Char}
    {direct direct' : Bool} (h : GithubReads u owner repo range base head direct)
    (h' : GitlabReads u project range' base' head' direct') : SharedPath u := by
  have hpath : rangePath owner repo range = project ++ compareMark ++ '/' :: range' := by
    rw [← h.trimmed, h'.path]
  have hslash : project ++ compareMark ++ '/' :: range' =
      project ++ '/' :: '-' :: '/' :: ("compare".toList ++ '/' :: range') := by
    simp [compareMark]
  obtain ⟨x, rfl, hrange⟩ := project_in_range (identifier_noSlash h.owner)
    (identifier_noSlash h.repo) h'.project h.range_ne (hpath.trans hslash)
  have hplain : ∀ c ∈ x ++ compareMark ++ ['/'], plainChar c := by
    intro c hc
    rw [List.append_assoc, List.mem_append] at hc
    rcases hc with hc | hc
    · exact Gitlab.project_plain h'.project c (by simp [rangePath, hc])
    · exact Gitlab.compareMark_plain c hc
  have hrange : range = x ++ compareMark ++ ['/'] ++ range' := by
    rw [hrange]
    simp [compareMark]
  -- Both have read the same text.
  have htext : base ++ dots direct ++ head =
      x ++ compareMark ++ ['/'] ++ (base' ++ dots direct' ++ head') := by
    have hdecode := h.text
    rw [hrange, decodePath_append hplain, h'.text] at hdecode
    exact (Except.ok.inj hdecode).symm
  obtain ⟨-, hfirst₁, hlast₁, hdots₁, -, hcolon₁⟩ := refName_spec h'.base
  obtain ⟨-, hfirst₂, hlast₂, hdots₂, -, hcolon₂⟩ := refName_spec h'.head
  have hcolon : ':' ∉ base ++ dots direct ++ head := by
    rw [htext]
    simp only [List.mem_append, not_or]
    refine ⟨?_, ⟨hcolon₁, fun hm => absurd (dots_mem hm) (by decide)⟩, hcolon₂⟩
    simpa using plainChar_ne_colon hplain
  simp only [List.mem_append, not_or] at hcolon
  have hbase := h.base
  have hhead := h.head
  rw [sideName_self hcolon.1.1] at hbase
  rw [sideName_self hcolon.2] at hhead
  obtain ⟨-, -, hlast₃, hdots₃, -⟩ := refName_spec hbase
  obtain ⟨-, hfirst₄, -, hdots₄, -⟩ := refName_spec hhead
  have hne : base' ≠ [] := (refName_spec h'.base).1
  have htexts : base ++ (dots direct ++ head) =
      (x ++ compareMark ++ ['/'] ++ base') ++ (dots direct' ++ head') := by
    simpa using htext
  obtain ⟨rfl, rfl, rfl⟩ := range_unique htexts hdots₃ (fun hc => by simpa using hlast₃ _ hc)
    (by
      rw [List.getLast?_append_of_ne_nil _ hne]
      exact fun hc => by simpa using hlast₁ _ hc)
    hdots₄ (fun hc => by simpa using hfirst₄ _ hc) (fun hc => by simpa using hfirst₂ _ hc)
  refine .inr ⟨owner, repo, x, range', base', head, direct,
    { pairs := h'.pairs, path := ?_, project := h'.project, first := h'.first, text := h'.text
      owner := h.owner, repo := h.repo, long := ?_, base := h'.base, head := hhead }⟩
  · have hcut : x ++ compareMark ++ '/' :: range' = range := by
      rw [hrange]
      simp
    rw [hcut]
    exact h.path
  · simpa using hbase

theorem tabs_plain : ∀ tab ∈ tabs, ∀ c ∈ tab, plainChar c ∧ c ≠ '.' := by
  have hall : tabs.all (·.all fun c => plainChar c && c != '.') = true := by decide +kernel
  simpa using hall

theorem mergeMark_noDot : '.' ∉ mergeMark := by decide +kernel

/-- What follows the project of a merge request is plain text, without dots. -/
theorem number_plain {n tab : List Char} (hn : n.all Char.isDigit = true) (htab : tab ∈ tabs) :
    ∀ c ∈ mergeMark ++ (n ++ tab), plainChar c ∧ c ≠ '.' := by
  intro c hc
  simp only [List.mem_append] at hc
  rcases hc with hc | hc | hc
  · exact ⟨Gitlab.mergeMark_plain c hc, fun h => mergeMark_noDot (h ▸ hc)⟩
  · have hdigit := List.all_eq_true.mp hn c hc
    refine ⟨plainChar_of_digit hdigit, ?_⟩
    rintro rfl
    exact absurd hdigit (by decide)
  · exact tabs_plain tab htab c hc

/-- **A merge request that is a compare.** Its project is cut by the dots of the range. -/
theorem mrPath_of_both {owner repo range base head project n tab : List Char} {direct : Bool}
    (h : GithubReads u owner repo range base head direct) (h' : MrReads u project n tab)
    (hnot : Gitlab.isCompare u = false) : SharedPath u := by
  have hpath : rangePath owner repo range = project ++ mergeMark ++ (n ++ tab) := by
    rw [← h.trimmed, h'.path]
  have hslash : project ++ mergeMark ++ (n ++ tab) =
      project ++ '/' :: '-' :: '/' :: (mergeMark.drop 3 ++ (n ++ tab)) := by
    simp [mergeMark]
  obtain ⟨x, rfl, hrange⟩ := project_in_range (identifier_noSlash h.owner)
    (identifier_noSlash h.repo) h'.project h.range_ne (hpath.trans hslash)
  have hrange : range = x ++ (mergeMark ++ (n ++ tab)) := by
    rw [hrange]
    simp [mergeMark]
  have hrest := number_plain h'.digits h'.tab
  have hplain : ∀ c ∈ range, plainChar c := by
    intro c hc
    rw [hrange, List.mem_append] at hc
    rcases hc with hc | hc
    · exact Gitlab.project_plain h'.project c (by simp [rangePath, hc])
    · exact (hrest c hc).1
  -- The text is the range itself, and its dots are in the project.
  have htext : base ++ dots direct ++ head = x ++ (mergeMark ++ (n ++ tab)) := by
    have hdecode := h.text
    rw [decodePath_plain hplain, hrange] at hdecode
    exact (Except.ok.inj hdecode).symm
  have hcut : ∃ m, x = base ++ dots direct ++ m ∧ head = m ++ (mergeMark ++ (n ++ tab)) := by
    rcases List.append_eq_append_iff.mp htext with ⟨m, hm, hhead⟩ | ⟨m, hm, hhead⟩
    · exact ⟨m, hm, hhead⟩
    · by_cases hnil : m = []
      · exact ⟨[], by simpa [hnil] using hm.symm, by simpa [hnil] using hhead.symm⟩
      · exfalso
        have hlast : (base ++ dots direct).getLast? = some '.' := by
          rw [List.getLast?_append_of_ne_nil _ (dots_ne_nil direct)]
          cases direct <;> rfl
        rw [hm, List.getLast?_append_of_ne_nil _ hnil] at hlast
        refine (hrest '.' ?_).2 rfl
        rw [hhead]
        exact List.mem_append_left _ (List.mem_of_getLast? hlast)
  obtain ⟨m, rfl, rfl⟩ := hcut
  have hcolon : ':' ∉ range := plainChar_ne_colon hplain
  simp only [hrange, List.mem_append, not_or] at hcolon
  have hbase := h.base
  have hhead := h.head
  rw [sideName_self hcolon.1.1.1] at hbase
  rw [sideName_self (by simpa using ⟨hcolon.1.2, hcolon.2⟩)] at hhead
  have hseparator : ¬ compareMark ++ ['/'] <:+:
      '/' :: rangePath owner repo (base ++ dots direct ++ m) ++ ['/'] := by
    intro hin
    have htext : compareMark ++ ['/'] <:+: u.endTrimmed := by
      refine hin.trans ⟨[], mergeMark.drop 1 ++ (n ++ tab), ?_⟩
      rw [h.path, hrange]
      simp [rangePath, mergeMark]
    simp [Gitlab.isCompare, hasText, Gitlab.compareMark_slash, htext] at hnot
  refine .inl ⟨owner, repo, base, m, n, tab, direct,
    { query := h'.query, pairs := h.pairs, path := ?_, project := h'.project
      separator := ⟨?_, ?_⟩, digits := h'.digits, number := h'.number, suffix := h'.tab
      owner := h.owner, repo := h.repo, base := hbase, head := by simpa using hhead }⟩
  · rw [h.path, hrange]
    simp [rangePath]
  · rw [String.toList_ofList, ← Gitlab.first_merge]
    exact h'.first
  · rw [String.toList_ofList]
    exact hseparator

end Proof
end Diffz
