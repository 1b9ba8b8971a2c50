import Diffz.App.Launch
import Diffz.Lib.Fallible
import Diffz.Proof.Address.Reopened

/-!
# A launch in the background opens what was asked for

`launch_args` is read back by `parse`, argument by argument (`parse_launchArgs`). Two things are not
kept. The flag of a remote request is chosen by `compare_request` from the address alone, which may
be a compare of another provider than the request's. And a theme that is a relative path is made
absolute, after which it may not be text.
-/

set_option autoImplicit false

namespace Diffz
namespace Proof

open Diffz.App
open Diffz.Handoff (OpenRequest)

variable {parseUrl : ParseUrl} {paths : Paths} {seen : Seen}

/-! ## One argument -/

theorem textArgument_asBytes (t flag : String) : textArgument (asBytes t) flag = .ok t := by
  rw [textArgument, fromUtf8_asBytes]

theorem parseLoop_switch {flag : String} {seen' : Seen} (h : seen.switch flag = some seen')
    (it : List Bytes) :
    parseLoop parseUrl seen (asBytes flag :: it) = parseLoop parseUrl seen' it := by
  rw [parseLoop]
  simp only [fromUtf8_asBytes, Option.getD_some, h]

theorem parseLoop_operand {flag : String} {read : Bytes → Except String Seen}
    (hs : seen.switch flag = none) (hr : seen.operand parseUrl flag = some read) (value : Bytes)
    (it : List Bytes) : parseLoop parseUrl seen (asBytes flag :: value :: it) =
      read value >>= fun seen => parseLoop parseUrl seen it := by
  rw [parseLoop]
  simp only [fromUtf8_asBytes, Option.getD_some, hs, hr]

/-- A flag that names the source, where there is none yet. -/
theorem parseLoop_source {flag : String} {read : Bytes → Except String OpenRequest}
    (hs : seen.switch flag = none) (hr : sourceOf parseUrl flag = some read)
    (hnone : seen.source = none) (value : Bytes) (it : List Bytes) :
    parseLoop parseUrl seen ([asBytes flag, value] ++ it) =
      read value >>= fun request => parseLoop parseUrl { seen with source := some request } it := by
  have ho : seen.operand parseUrl flag = some fun value => read value >>= seen.sourced := by
    rw [Seen.operand, hr]
  rw [List.cons_append, List.cons_append, List.nil_append, parseLoop_operand hs ho]
  cases read value with
  | error e => rfl
  | ok request => simp only [ok_bind, Seen.sourced, setSource, hnone]; rfl

/-! ## The arguments of a launch -/

section

-- The tables of the flags: every argument below is found in one of them.
attribute [local simp] Seen.switch Seen.operand Seen.setting sourceOf

/-- What the arguments of a request are read as. -/
def reread (parseUrl : ParseUrl) : OpenRequest → Except String OpenRequest
  | .remote provider address =>
    if provider = .entire then
      (Entire.TrailAddress.parse parseUrl address).map fun _ => .remote .entire address
    else match compareRequest parseUrl address with
      | .ok request => .ok request
      | .error _ => .ok (.remote provider address)
  | request => .ok request

/-- A request that was read; the refs of a repository stand apart from it. -/
def afterRequest (seen : Seen) : OpenRequest → Seen
  | .localGit root base head => { seen with source := some (.localGit root "" ""), base, head }
  | request => { seen with source := some request }

theorem compareRequest_remote {address : String} {r : OpenRequest}
    (h : compareRequest parseUrl address = .ok r) :
    ∃ provider, provider ≠ ProviderId.entire ∧ r = .remote provider address := by
  unfold compareRequest at h
  split at h
  · cases h
  · obtain ⟨provider, hp, h⟩ := ok_of_bind h
    cases h
    refine ⟨provider, ?_, rfl⟩
    unfold compareProvider at hp
    split at hp
    · cases hp
    · split at hp
      · cases hp
        decide
      · split at hp
        · cases hp
          decide
        · split at hp <;> cases hp

theorem parseLoop_remote {provider : ProviderId} {address : String} {l : List Bytes}
    (h : requestArgs parseUrl (.remote provider address) = .ok l) (hnone : seen.source = none)
    (it : List Bytes) : parseLoop parseUrl seen (l ++ it) =
      reread parseUrl (.remote provider address) >>= fun r =>
        parseLoop parseUrl (afterRequest seen r) it := by
  simp only [requestArgs] at h
  split at h
  · rename_i hentire
    cases h
    rw [parseLoop_source (by simp [Seen.switch]) (by simp [sourceOf]; rfl) hnone]
    simp only [textArgument_asBytes, ok_bind, reread, hentire, if_true]
    cases Entire.TrailAddress.parse parseUrl address <;> rfl
  · rename_i hentire
    split at h
    · rename_i hcompare
      cases h
      obtain ⟨r, hr⟩ := ok_of_isOk hcompare
      obtain ⟨provider', -, hremote⟩ := compareRequest_remote hr
      rw [parseLoop_source (by simp [Seen.switch]) (by simp [sourceOf]; rfl) hnone]
      simp only [textArgument_asBytes, ok_bind, reread, hentire, if_false, hr]
      rw [hremote]
      rfl
    · rename_i hcompare
      have herror : reread parseUrl (.remote provider address) = .ok (.remote provider address) := by
        simp only [reread, hentire, if_false]
        cases hc : compareRequest parseUrl address with
        | error e => rfl
        | ok r => simp [hc, Except.isOk, Except.toBool] at hcompare
      rw [herror]
      split at h
      · rename_i hgithub
        cases h
        rw [parseLoop_source (by simp [Seen.switch]) (by simp [sourceOf]; rfl) hnone]
        simp only [textArgument_asBytes, hgithub]
        rfl
      · split at h
        · rename_i hgitlab
          cases h
          rw [parseLoop_source (by simp [Seen.switch]) (by simp [sourceOf]; rfl) hnone]
          simp only [textArgument_asBytes, hgitlab]
          rfl
        · cases h

/-- **The arguments of a request are read back.** -/
theorem parseLoop_request {request : OpenRequest} {l : List Bytes}
    (h : requestArgs parseUrl request = .ok l) (hnone : seen.source = none) (it : List Bytes) :
    parseLoop parseUrl seen (l ++ it) = reread parseUrl request >>= fun r =>
      parseLoop parseUrl (afterRequest seen r) it := by
  cases request with
  | remote provider address => exact parseLoop_remote h hnone it
  | fixture id =>
    cases h
    rw [parseLoop_source (by simp [Seen.switch]) (by simp [sourceOf]; rfl) hnone]
    simp only [textArgument_asBytes]
    rfl
  | resume id =>
    cases h
    rw [parseLoop_source (by simp [Seen.switch]) (by simp [sourceOf]; rfl) hnone]
    simp only [textArgument_asBytes]
    rfl
  | patch path =>
    cases h
    rw [parseLoop_source (by simp [Seen.switch]) (by simp [sourceOf]; rfl) hnone]
    rfl
  | localIndex root =>
    cases h
    rw [parseLoop_source (by simp [Seen.switch]) (by simp [sourceOf]; rfl) hnone]
    rfl
  | localWorktree root =>
    cases h
    rw [parseLoop_source (by simp [Seen.switch]) (by simp [sourceOf]; rfl) hnone]
    rfl
  | localGit root base head =>
    cases h
    have hsplit : [asBytes "--git", root, asBytes "--base", asBytes base, asBytes "--head",
        asBytes head] ++ it = [asBytes "--git", root] ++
          (asBytes "--base" :: asBytes base :: asBytes "--head" :: asBytes head :: it) := rfl
    rw [hsplit, parseLoop_source (by simp [Seen.switch]) (by simp [sourceOf]; rfl) hnone]
    simp only [ok_bind]
    rw [parseLoop_operand (by simp [Seen.switch])
      (by simp [Seen.operand, sourceOf, Seen.setting]; rfl)]
    simp only [textArgument_asBytes, Except.map, ok_bind]
    rw [parseLoop_operand (by simp [Seen.switch])
      (by simp [Seen.operand, sourceOf, Seen.setting]; rfl)]
    simp only [textArgument_asBytes, Except.map, ok_bind, reread]
    rfl

/-- What a theme is read back as. -/
def rethemed (paths : Paths) : Option String → Except String (Option String)
  | none => .ok none
  | some theme =>
    if paths.present (asBytes theme) then
      (paths.absolute (asBytes theme)).bind fun theme => (textArgument theme "--theme").map some
    else .ok (some theme)

theorem parseLoop_theme {theme : Option String} {l : List Bytes}
    (h : themeArgs paths theme = .ok l) (hnone : seen.theme = none) :
    parseLoop parseUrl seen l = (rethemed paths theme).map fun theme => { seen with theme } := by
  unfold themeArgs at h
  split at h
  · cases h
    rw [rethemed, ← hnone]
    rfl
  · rename_i theme
    have hread : ∀ value, parseLoop parseUrl seen [asBytes "--theme", value] =
        (textArgument value "--theme").map fun theme => { seen with theme := some theme } := by
      intro value
      rw [parseLoop_operand (by simp [Seen.switch])
        (by simp [Seen.operand, sourceOf, Seen.setting]; rfl)]
      cases textArgument value "--theme" <;> rfl
    rw [rethemed]
    split at h
    · rename_i hpresent
      obtain ⟨path, hpath, rfl⟩ := ok_of_map h
      rw [if_pos hpresent, hpath, hread]
      cases ht : textArgument path "--theme" <;> simp [Except.bind, ht, Except.map]
    · rename_i hpresent
      cases h
      rw [if_neg hpresent, hread, textArgument_asBytes]
      rfl

theorem parseLoop_font {font : Option String} (hnone : seen.font = none) (it : List Bytes) :
    parseLoop parseUrl seen (fontArgs font ++ it) = parseLoop parseUrl { seen with font } it := by
  cases font with
  | none =>
    have hseen : ({ seen with font := none } : Seen) = seen := by rw [← hnone]
    rw [hseen]
    rfl
  | some font =>
    rw [fontArgs, List.cons_append, List.cons_append, List.nil_append, parseLoop_operand
      (by simp [Seen.switch]) (by simp [Seen.operand, sourceOf, Seen.setting]; rfl)]
    simp only [textArgument_asBytes]
    rfl

/-- A permission is given if its flag is. -/
theorem parseLoop_flag {flag : String} {seen' : Seen} {given : Bool} (it : List Bytes)
    (h : given = true → seen.switch flag = some seen') (hnot : given = false → seen' = seen) :
    parseLoop parseUrl seen ((if given then [asBytes flag] else []) ++ it) =
      parseLoop parseUrl seen' it := by
  cases given with
  | true => exact parseLoop_switch (h rfl) it
  | false => rw [hnot rfl]; rfl

/-! ## The launch -/

/-- What a launch is read back as. -/
def relaunched (options : Options) (dir : Bytes) (request : Option OpenRequest)
    (theme : Option String) : Options :=
  { request, state := some dir, writes := options.writes, gitlabWrites := options.gitlabWrites,
    inspect := false, foreground := true, json := false, font := options.font, theme,
    probe := none, probeOutput := none }

/-- The start, after the state directory of a launch. -/
def launchStart (dir : Bytes) : Seen := { Seen.start with foreground := true, state := some dir }

theorem parseLoop_start (dir : Bytes) (it : List Bytes) :
    parseLoop parseUrl .start ([asBytes "--foreground", asBytes "--state-dir", dir] ++ it) =
      parseLoop parseUrl (launchStart dir) it := by
  rw [List.cons_append, List.cons_append, List.cons_append, List.nil_append,
    parseLoop_switch (by simp [Seen.switch]; rfl), parseLoop_operand (by simp [Seen.switch])
      (by simp [Seen.operand, sourceOf, Seen.setting]; rfl)]
  rfl

end

/-- The source of a launch that has been read. -/
def afterSource (seen : Seen) : Option OpenRequest → Seen
  | none => seen
  | some request => afterRequest seen request

def rereadSource (parseUrl : ParseUrl) : Option OpenRequest → Except String (Option OpenRequest)
  | none => .ok none
  | some request => (reread parseUrl request).map some

/-- What the options set after the source. -/
def afterOptions (seen : Seen) (options : Options) (theme : Option String) : Seen :=
  { seen with writes := options.writes, gitlabWrites := options.gitlabWrites,
              font := options.font, theme }

theorem parseLoop_options {options : Options} {theme : List Bytes} (hw : seen.writes = false)
    (hg : seen.gitlabWrites = false) (hf : seen.font = none) (ht : seen.theme = none)
    (h : themeArgs paths options.theme = .ok theme) :
    parseLoop parseUrl seen ((if options.writes then [asBytes "--allow-github-writes"] else []) ++
      ((if options.gitlabWrites then [asBytes "--allow-gitlab-writes"] else []) ++
        (fontArgs options.font ++ theme))) =
      (rethemed paths options.theme).map (afterOptions seen options) := by
  have hwrites : ∀ it, parseLoop parseUrl seen
      ((if options.writes then [asBytes "--allow-github-writes"] else []) ++ it) =
        parseLoop parseUrl { seen with writes := options.writes } it := fun it =>
    parseLoop_flag it (fun hgiven => by simp [Seen.switch, hgiven])
      (fun hgiven => by rw [hgiven, ← hw])
  have hgitlab : ∀ it, parseLoop parseUrl { seen with writes := options.writes }
      ((if options.gitlabWrites then [asBytes "--allow-gitlab-writes"] else []) ++ it) =
        parseLoop parseUrl { seen with writes := options.writes,
                                       gitlabWrites := options.gitlabWrites } it := fun it =>
    parseLoop_flag it (fun hgiven => by simp [Seen.switch, hgiven])
      (fun hgiven => by rw [hgiven, ← hg])
  rw [hwrites, hgitlab, parseLoop_font (by exact hf), parseLoop_theme h (by exact ht)]
  rfl

/-- What a launch has read is taken as it is: nothing of it is positional. -/
theorem named_launch (detect : Bytes → Except String OpenRequest) (dir : Bytes)
    (options : Options) (theme : Option String) (request : Option OpenRequest) :
    let seen := afterOptions (afterSource (launchStart dir) request) options theme
    (named detect seen).map (·.map (withRefs seen.base seen.head)) = .ok request := by
  cases request with
  | none => rfl
  | some request => cases request <;> rfl

/-- **A launch read back**, argument by argument. -/
theorem parse_launchArgs {options : Options} {state dir : Bytes} {request : Option OpenRequest}
    {out : List Bytes} (hdir : paths.absolute state = .ok dir)
    (h : launchArgs parseUrl paths options state request = .ok out) :
    parse parseUrl paths out = do
      let request ← rereadSource parseUrl request
      let theme ← rethemed paths options.theme
      return relaunched options dir request theme := by
  unfold launchArgs at h
  rw [hdir, ok_bind] at h
  obtain ⟨source, hsource, h⟩ := ok_of_bind h
  obtain ⟨theme, htheme, h⟩ := ok_of_bind h
  cases h
  -- The loop up to the options that follow the source.
  have hloop : ∀ it, parseLoop parseUrl (launchStart dir) (source ++ it) =
      rereadSource parseUrl request >>= fun request =>
        parseLoop parseUrl (afterSource (launchStart dir) request) it := by
    intro it
    cases request with
    | none =>
      cases hsource
      rfl
    | some request =>
      rw [parseLoop_request hsource rfl, rereadSource]
      cases reread parseUrl request <;> rfl
  have hclear : ∀ request, (afterSource (launchStart dir) request).writes = false ∧
      (afterSource (launchStart dir) request).gitlabWrites = false ∧
      (afterSource (launchStart dir) request).font = none ∧
      (afterSource (launchStart dir) request).theme = none := by
    intro request
    cases request with
    | none => exact ⟨rfl, rfl, rfl, rfl⟩
    | some request => cases request <;> exact ⟨rfl, rfl, rfl, rfl⟩
  simp only [parse, parseWithDetect, List.append_assoc, parseLoop_start, hloop]
  cases rereadSource parseUrl request with
  | error e => rfl
  | ok request =>
    obtain ⟨hw, hg, hf, ht⟩ := hclear request
    simp only [ok_bind]
    rw [parseLoop_options hw hg hf ht htheme]
    cases rethemed paths options.theme with
    | error e => rfl
    | ok theme =>
      simp only [Except.map, ok_bind]
      have hnamed := named_launch (detect parseUrl paths) dir options theme request
      dsimp only at hnamed
      obtain ⟨named', hnamed', hrequest⟩ := ok_of_map hnamed
      rw [hnamed']
      simp only [ok_bind, hrequest]
      cases request with
      | none => rfl
      | some request => cases request <;> rfl

/-! ## What has been accepted -/

/-- A request for a Trail names one. -/
def TrailNamed (parseUrl : ParseUrl) (source : Option OpenRequest) : Prop :=
  ∀ address, source = some (.remote .entire address) →
    (Entire.TrailAddress.parse parseUrl address).isOk = true

theorem sourceOf_trail {flag : String} {read : Bytes → Except String OpenRequest} {value : Bytes}
    {request : OpenRequest} (h : sourceOf parseUrl flag = some read)
    (hr : read value = .ok request) : TrailNamed parseUrl (some request) := by
  intro address haddress
  cases haddress
  unfold sourceOf at h
  split at h
  · cases h
    obtain ⟨_, -, hr⟩ := ok_of_map hr
    cases hr
  split at h
  · cases h
    cases hr
  split at h
  · cases h
    obtain ⟨_, -, hr⟩ := ok_of_map hr
    exact absurd (OpenRequest.remote.inj hr).1 (by decide)
  split at h
  · cases h
    cases hr
  split at h
  · cases h
    cases hr
  split at h
  · cases h
    cases hr
  split at h
  · cases h
    obtain ⟨_, -, hr⟩ := ok_of_map hr
    cases hr
  split at h
  · cases h
    obtain ⟨_, -, hr⟩ := ok_of_map hr
    exact absurd (OpenRequest.remote.inj hr).1 (by decide)
  split at h
  · -- The address of `--trail` is parsed before it is taken.
    cases h
    obtain ⟨_, -, hr⟩ := ok_of_bind hr
    obtain ⟨trail, htrail, hr⟩ := ok_of_bind hr
    cases hr
    rw [htrail]
    rfl
  split at h
  · cases h
    obtain ⟨_, -, hr⟩ := ok_of_bind hr
    obtain ⟨provider, hp, hremote⟩ := compareRequest_remote hr
    exact absurd (OpenRequest.remote.inj hremote).1.symm hp
  · cases h

/-- A setting leaves the source alone. -/
theorem setting_source {flag : String} {read : Bytes → Except String Seen} {value : Bytes}
    {seen' : Seen} (h : seen.setting flag = some read) (hr : read value = .ok seen') :
    seen'.source = seen.source := by
  unfold Seen.setting at h
  split at h
  · cases h
    obtain ⟨_, -, rfl⟩ := ok_of_map hr
    rfl
  split at h
  · cases h
    obtain ⟨_, -, rfl⟩ := ok_of_map hr
    rfl
  split at h
  · cases h
    cases hr
    rfl
  split at h
  · cases h
    obtain ⟨_, -, rfl⟩ := ok_of_map hr
    rfl
  split at h
  · cases h
    obtain ⟨_, -, rfl⟩ := ok_of_map hr
    rfl
  split at h
  · cases h
    cases hr
    rfl
  split at h
  · cases h
    cases hr
    rfl
  · cases h

theorem switch_source {flag : String} {seen' : Seen} (h : seen.switch flag = some seen') :
    seen'.source = seen.source := by
  unfold Seen.switch at h
  split_ifs at h <;> cases h <;> rfl

theorem sourced_ok {request : OpenRequest} {seen' : Seen} (h : seen.sourced request = .ok seen') :
    seen' = { seen with source := some request } := by
  obtain ⟨source, hs, h⟩ := ok_of_bind h
  cases h
  unfold setSource at hs
  split at hs
  · cases hs
  · cases hs
    rfl

/-- An option with a value keeps the source, or sets it. -/
theorem operand_trail {flag : String} {read : Bytes → Except String Seen} {value : Bytes}
    {seen' : Seen} (hi : TrailNamed parseUrl seen.source)
    (h : seen.operand parseUrl flag = some read) (hr : read value = .ok seen') :
    TrailNamed parseUrl seen'.source := by
  unfold Seen.operand at h
  split at h
  · rename_i readSource hsource
    cases h
    obtain ⟨request, hrequest, hr⟩ := ok_of_bind hr
    rw [sourced_ok hr]
    exact sourceOf_trail hsource hrequest
  · rw [setting_source h hr]
    exact hi

/-- The loop keeps what each argument keeps. The induction is on how many arguments are left, as an
option takes two. -/
theorem parseLoop_invariant (Inv : Seen → Prop)
    (hswitch : ∀ {seen seen' flag}, Inv seen → seen.switch flag = some seen' → Inv seen')
    (hoperand : ∀ {seen seen' flag read value}, Inv seen →
      seen.operand parseUrl flag = some read → read value = .ok seen' → Inv seen')
    (hpositional : ∀ {seen seen' arg}, Inv seen →
      Seen.sourced { seen with positional := true } (.patch arg) = .ok seen' → Inv seen')
    {args : List Bytes} {seen' : Seen} (hi : Inv seen)
    (h : parseLoop parseUrl seen args = .ok seen') : Inv seen' := by
  induction hn : args.length using Nat.strong_induction_on generalizing args seen with
  | _ n ih =>
    cases args with
    | nil =>
      cases h
      exact hi
    | cons arg it =>
      have hlt : it.length < n := by rw [← hn]; simp
      rw [parseLoop] at h
      split at h
      · rename_i hs
        exact ih _ hlt (hswitch hi hs) h rfl
      · split at h
        · rename_i read hread
          split at h
          · cases h
          · obtain ⟨next, hnext, h⟩ := ok_of_bind h
            refine ih _ ?_ (hoperand hi hread hnext) h rfl
            simp only [List.length_cons] at hlt
            omega
        · split at h
          · cases h
          · obtain ⟨next, hnext, h⟩ := ok_of_bind h
            exact ih _ hlt (hpositional hi hnext) h rfl

theorem detectProvider_entire {input label : String} {provider : ProviderId}
    (h : detectProvider parseUrl input = some (provider, label)) : provider ≠ .entire := by
  unfold detectProvider at h
  split at h <;> cases h <;> decide

theorem detect_trail {path : Bytes} {request : OpenRequest}
    (h : detect parseUrl paths path = .ok request) : TrailNamed parseUrl (some request) := by
  intro address haddress
  cases haddress
  unfold detect at h
  split at h
  · obtain ⟨_, -, h⟩ := ok_of_map h
    cases h
  · split at h
    · rename_i provider address' label hdetected
      cases h
      obtain ⟨input, -, hdetected⟩ := Option.bind_eq_some_iff.mp hdetected
      unfold detectSource at hdetected
      dsimp only at hdetected
      split at hdetected
      · cases hdetected
      · split at hdetected
        · cases hdetected
        · split at hdetected
          · split at hdetected
            · cases hdetected
            · rename_i htrail
              cases hdetected
              rw [htrail]
              rfl
          · obtain ⟨⟨provider, label⟩, hfound, hdetected⟩ :=
              Option.map_eq_some_iff.mp hdetected
            cases hdetected
            exact absurd rfl (detectProvider_entire hfound)
    · cases h

/-- **An accepted request for a Trail names one.** -/
theorem parse_trail {args : List Bytes} {options : Options}
    (h : parse parseUrl paths args = .ok options) : TrailNamed parseUrl options.request := by
  obtain ⟨seen, hseen, h⟩ := ok_of_bind h
  obtain ⟨request, hrequest, h⟩ := ok_of_bind h
  have hsource : TrailNamed parseUrl seen.source := by
    refine parseLoop_invariant (TrailNamed parseUrl ·.source) ?_ operand_trail ?_ ?_ hseen
    · intro seen seen' flag hi hs
      rw [switch_source hs]
      exact hi
    · intro seen seen' arg hi hs
      rw [sourced_ok hs]
      intro address haddress
      cases haddress
    · intro address haddress
      cases haddress
  have hnamed : TrailNamed parseUrl request := by
    unfold named at hrequest
    split at hrequest
    · split at hrequest
      · obtain ⟨r, hr, rfl⟩ := ok_of_map hrequest
        exact detect_trail hr
      · cases hrequest
        intro address haddress
        cases haddress
    · cases hrequest
      exact hsource
  have hkept : options.request = request.map (withRefs seen.base seen.head) := by
    dsimp only at h
    split at h
    · cases h
    · split at h
      · obtain ⟨_, -, h⟩ := ok_of_bind h
        cases h
        rfl
      · cases h
        rfl
  intro address haddress
  rw [hkept, Option.map_eq_some_iff] at haddress
  obtain ⟨r, hr, haddress⟩ := haddress
  refine hnamed address ?_
  cases r with
  | remote provider a => rw [hr, ← haddress]; rfl
  | fixture id => cases haddress
  | patch path => cases haddress
  | localGit root base head => cases haddress
  | localIndex root => cases haddress
  | localWorktree root => cases haddress
  | resume id => cases haddress

/-! ## The same launch -/

/-- The options of the window in the background open what was asked for. -/
structure SameLaunch (options : Options) (dir : Bytes) (launched : Options) : Prop where
  request : launched.request = options.request
  writes : launched.writes = options.writes
  gitlabWrites : launched.gitlabWrites = options.gitlabWrites
  font : launched.font = options.font
  foreground : launched.foreground = true
  state : launched.state = some dir

/-- The address is no compare of another provider. -/
def OwnCompare (parseUrl : ParseUrl) (source : Option OpenRequest) : Prop :=
  ∀ provider address request, source = some (.remote provider address) →
    compareRequest parseUrl address = .ok request → request = .remote provider address

/-- A theme that is a path is text when it is absolute. -/
def ThemeIsText (paths : Paths) (theme : Option String) : Prop :=
  ∀ path absolute, theme = some path → paths.present (asBytes path) = true →
    paths.absolute (asBytes path) = .ok absolute → (fromUtf8 absolute).isSome = true

/-- An address that is none has no compare of another provider. -/
theorem ownCompare_other {request : OpenRequest}
    (h : ∀ provider address, request ≠ .remote provider address) :
    OwnCompare parseUrl (some request) :=
  fun provider address _ hsource _ => absurd (Option.some.inj hsource) (h provider address)

theorem reread_iff {request : OpenRequest} (h : TrailNamed parseUrl (some request)) :
    reread parseUrl request = .ok request ↔ OwnCompare parseUrl (some request) := by
  cases request with
  | remote provider address =>
    by_cases hentire : provider = .entire
    · -- An address of a Trail is refused as a compare.
      subst hentire
      have htrail := h address rfl
      obtain ⟨trail, hparse⟩ := ok_of_isOk htrail
      refine iff_of_true ?_ ?_
      · rw [reread, if_pos rfl, hparse]
        rfl
      · intro provider' address' r hsource hr
        cases hsource
        rw [compareRequest, if_pos htrail] at hr
        cases hr
    · rw [reread, if_neg hentire]
      cases hcompare : compareRequest parseUrl address with
      | error e =>
        refine iff_of_true rfl ?_
        intro provider' address' r hsource hr
        cases hsource
        rw [hcompare] at hr
        cases hr
      | ok r =>
        constructor
        · intro hr provider' address' r' hsource hr'
          cases hsource
          rw [hcompare] at hr'
          cases hr'
          exact Except.ok.inj hr
        · intro hown
          exact congrArg Except.ok (hown _ _ _ rfl hcompare)
  | fixture id => exact iff_of_true rfl (ownCompare_other (by simp))
  | patch path => exact iff_of_true rfl (ownCompare_other (by simp))
  | localGit root base head => exact iff_of_true rfl (ownCompare_other (by simp))
  | localIndex root => exact iff_of_true rfl (ownCompare_other (by simp))
  | localWorktree root => exact iff_of_true rfl (ownCompare_other (by simp))
  | resume id => exact iff_of_true rfl (ownCompare_other (by simp))

theorem rereadSource_iff {source : Option OpenRequest} (h : TrailNamed parseUrl source) :
    rereadSource parseUrl source = .ok source ↔ OwnCompare parseUrl source := by
  cases source with
  | none =>
    refine iff_of_true rfl ?_
    intro provider address r hsource
    cases hsource
  | some request =>
    rw [← reread_iff h, rereadSource]
    cases reread parseUrl request with
    | error e => exact iff_of_false (by simp [Except.map]) (by simp)
    | ok r => simp [Except.map]

theorem rethemed_iff {theme : Option String} {l : List Bytes}
    (h : themeArgs paths theme = .ok l) :
    (∃ read, rethemed paths theme = .ok read) ↔ ThemeIsText paths theme := by
  cases theme with
  | none =>
    refine iff_of_true ⟨none, rfl⟩ ?_
    intro path absolute hpath
    cases hpath
  | some theme =>
    rw [themeArgs] at h
    rw [rethemed]
    split at h
    · rename_i hpresent
      obtain ⟨absolute, habsolute, -⟩ := ok_of_map h
      rw [if_pos hpresent, habsolute]
      constructor
      · rintro ⟨read, hread⟩ path absolute' hpath - habsolute'
        cases hpath
        rw [habsolute] at habsolute'
        cases habsolute'
        obtain ⟨text, htext, -⟩ := ok_of_map hread
        unfold textArgument at htext
        split at htext
        · cases htext
        · rename_i hutf8
          rw [hutf8]
          rfl
      · intro htext
        obtain ⟨text, hutf8⟩ := Option.isSome_iff_exists.mp (htext _ _ rfl hpresent habsolute)
        refine ⟨some text, ?_⟩
        simp [Except.bind, textArgument, hutf8, Except.map]
    · rename_i hpresent
      rw [if_neg hpresent]
      refine iff_of_true ⟨some theme, rfl⟩ ?_
      intro path absolute hpath habsent
      cases hpath
      exact absurd habsent hpresent

/-- **Background and foreground launches open the same thing**, if the address is no compare of
another provider and a theme stays text. -/
theorem launch_opens_same_iff {args out : List Bytes} {options : Options} {state dir : Bytes}
    (hparse : parse parseUrl paths args = .ok options) (hdir : paths.absolute state = .ok dir)
    (hlaunch : launchArgs parseUrl paths options state options.request = .ok out) :
    (∃ launched, parse parseUrl paths out = .ok launched ∧ SameLaunch options dir launched) ↔
      OwnCompare parseUrl options.request ∧ ThemeIsText paths options.theme := by
  have hread := parse_launchArgs hdir hlaunch
  have htheme : ∃ l, themeArgs paths options.theme = .ok l := by
    obtain ⟨_, -, h⟩ := ok_of_bind hlaunch
    obtain ⟨_, -, h⟩ := ok_of_bind h
    obtain ⟨l, hl, -⟩ := ok_of_bind h
    exact ⟨l, hl⟩
  obtain ⟨l, hl⟩ := htheme
  rw [← rereadSource_iff (parse_trail hparse), ← rethemed_iff hl, hread]
  constructor
  · rintro ⟨launched, hlaunched, hsame⟩
    obtain ⟨request, hrequest, h⟩ := ok_of_bind hlaunched
    obtain ⟨theme, htheme, h⟩ := ok_of_bind h
    cases h
    have hkept : request = options.request := hsame.request
    exact ⟨hkept ▸ hrequest, theme, htheme⟩
  · rintro ⟨hrequest, theme, htheme⟩
    refine ⟨relaunched options dir options.request theme, ?_, ⟨rfl, rfl, rfl, rfl, rfl, rfl⟩⟩
    rw [hrequest, htheme]
    rfl

/-- A directory in which there are no files. -/
def bareDirectory : Paths :=
  { isFile := fun _ => false, present := fun _ => false,
    absolute := fun path => .ok (if path.head? = some 47 then path else asBytes "/work/" ++ path) }

def pullLaunch : Options :=
  { request := some (.remote .github "owner/repo#1"), state := none, writes := true,
    gitlabWrites := false, inspect := false, foreground := false, json := false,
    font := some "Fira Code", theme := some "current", probe := none, probeOutput := none }

theorem pullLaunch_opens_same :
    ∃ launched, parse readPlainUrl bareDirectory
      ([asBytes "--foreground", asBytes "--state-dir", asBytes "/work/state", asBytes "--pr",
        asBytes "owner/repo#1", asBytes "--allow-github-writes", asBytes "--font",
        asBytes "Fira Code", asBytes "--theme", asBytes "current"]) = .ok launched ∧
      SameLaunch pullLaunch (asBytes "/work/state") launched := by
  have hparse : parse readPlainUrl bareDirectory [asBytes "owner/repo#1", asBytes "--font",
      asBytes "Fira Code", asBytes "--allow-github-writes", asBytes "--theme",
      asBytes "current"] = .ok pullLaunch := by
    decide +kernel
  have hdir : bareDirectory.absolute (asBytes "state") = .ok (asBytes "/work/state") := by
    decide +kernel
  refine (launch_opens_same_iff hparse hdir (by decide +kernel)).mpr ⟨?_, ?_⟩
  · intro provider address request hsource hr
    cases hsource
    have hnone : (compareRequest readPlainUrl "owner/repo#1").isOk = false := by decide +kernel
    rw [hr] at hnone
    cases hnone
  · intro path absolute _ hpresent
    cases hpresent

/-- A compare on GitLab that was given as a pull request is opened on GitLab. -/
def otherCompare : String := "https://gitlab.com/g/p/-/compare/v1...v2"

def otherOptions : Options :=
  { request := some (.remote .github otherCompare), state := none, writes := false,
    gitlabWrites := false, inspect := false, foreground := false, json := false, font := none,
    theme := none, probe := none, probeOutput := none }

theorem otherCompare_parsed : parse readPlainUrl bareDirectory
    [asBytes "--pr", asBytes otherCompare] = .ok otherOptions := by
  decide +kernel

theorem otherCompare_request :
    compareRequest readPlainUrl otherCompare = .ok (.remote .gitlab otherCompare) := by
  decide +kernel

/-- It is passed on as a compare. -/
theorem otherCompare_launched : launchArgs readPlainUrl bareDirectory otherOptions
    (asBytes "/state") otherOptions.request =
      .ok [asBytes "--foreground", asBytes "--state-dir", asBytes "/state", asBytes "--compare",
        asBytes otherCompare] := by
  have hdir : bareDirectory.absolute (asBytes "/state") = .ok (asBytes "/state") := by
    decide
  have hsource : sourceArgs readPlainUrl otherOptions.request =
      .ok [asBytes "--compare", asBytes otherCompare] := by
    simp only [sourceArgs, otherOptions, requestArgs, otherCompare_request]
    rfl
  rw [launchArgs, hdir, hsource]
  rfl

theorem otherCompare_opens_other :
    (parse readPlainUrl bareDirectory [asBytes "--pr", asBytes otherCompare]).map (·.request) =
        .ok (some (.remote .github otherCompare)) ∧
      (parse readPlainUrl bareDirectory [asBytes "--pr", asBytes otherCompare] >>= fun options =>
        launchArgs readPlainUrl bareDirectory options (asBytes "/state") options.request >>=
          parse readPlainUrl bareDirectory).map (·.request) =
        .ok (some (.remote .gitlab otherCompare)) := by
  have hdir : bareDirectory.absolute (asBytes "/state") = .ok (asBytes "/state") := by
    decide
  rw [otherCompare_parsed]
  refine ⟨rfl, ?_⟩
  rw [ok_bind, otherCompare_launched, ok_bind, parse_launchArgs hdir otherCompare_launched]
  simp only [otherOptions, rereadSource, reread]
  rw [if_neg (by decide), otherCompare_request]
  rfl

end Proof
end Diffz
