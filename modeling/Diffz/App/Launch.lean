import Diffz.Adapters.Detect

/-!
# The command line (`crates/app/src/main.rs`)

`parse` reads what a launch is asked for, and `launch_args` writes it for the process that opens the
window in the background. An argument is bytes, of which only the names of options are text.
-/

set_option autoImplicit false

namespace Diffz
namespace App

open Handoff (OpenRequest)

structure Options where
  /-- None when the command line named no source. -/
  request : Option OpenRequest
  state : Option Bytes
  writes : Bool
  gitlabWrites : Bool
  inspect : Bool
  foreground : Bool
  json : Bool
  font : Option String
  theme : Option String
  probe : Option Bytes
  probeOutput : Option Bytes
deriving DecidableEq, Repr

/-- `text_argument`. -/
def textArgument (value : Bytes) (flag : String) : Except String String :=
  match fromUtf8 value with
  | none => .error ("value after " ++ flag ++ " must be valid UTF-8")
  | some text => .ok text

def setSource (source : Option OpenRequest) (request : OpenRequest) :
    Except String (Option OpenRequest) :=
  if source.isSome then .error "pass a single source per launch" else .ok (some request)

/-- The host of a compare on GitHub. -/
def githubCompare : Except String Github.Target → Option String
  | .ok (.compare a) => some a.host
  | _ => none

/-- The host of a compare on GitLab. -/
def gitlabCompare : Except String Gitlab.Target → Option String
  | .ok (.compare a) => some a.host
  | _ => none

/-- The provider of a compare, by what the parsers say. -/
def compareProvider (github : Except String Github.Target) (gitlab : Except String Gitlab.Target) :
    Except String ProviderId :=
  if (githubCompare github).any (· ∈ ["entire.com", "entire.io"]) ∨
      (gitlabCompare gitlab).any (· ∈ ["entire.com", "entire.io"]) then
    .error "Entire compare URLs are not supported; use --trail with an Entire Trail URL"
  else if (githubCompare github).isSome then .ok .github
  else if (gitlabCompare gitlab).isSome then .ok .gitlab
  else match github, gitlab with
    | .error e, .error e' =>
      .error ("not a GitHub compare (" ++ e ++ ") or a GitLab compare (" ++ e' ++ ")")
    | _, _ => .error "the address is a pull or merge request; use --pr or --mr"

/-- Each provider's own parser decides whether a URL is a compare of its own. -/
def compareRequest (parseUrl : ParseUrl) (address : String) : Except String OpenRequest :=
  if (Entire.TrailAddress.parse parseUrl address).isOk then
    .error "the address is an Entire Trail; use --trail"
  else do
    let provider ← compareProvider (Github.Target.parse parseUrl address)
      (Gitlab.Target.parse parseUrl address)
    return .remote provider address

/-! ## Reading the arguments -/

/-- What the arguments so far have set. -/
structure Seen where
  source : Option OpenRequest
  state : Option Bytes
  writes : Bool
  gitlabWrites : Bool
  inspect : Bool
  positional : Bool
  foreground : Bool
  json : Bool
  font : Option String
  theme : Option String
  base : String
  head : String
  probe : Option Bytes
  probeOutput : Option Bytes
deriving DecidableEq, Repr

def Seen.start : Seen :=
  { source := none, state := none, writes := false, gitlabWrites := false, inspect := false,
    positional := false, foreground := false, json := false, font := none, theme := none,
    base := "main", head := "HEAD", probe := none, probeOutput := none }

/-- The options that have no value. -/
def Seen.switch (seen : Seen) (flag : String) : Option Seen :=
  if flag = "--allow-github-writes" then some { seen with writes := true }
  else if flag = "--allow-gitlab-writes" then some { seen with gitlabWrites := true }
  else if flag = "--inspect" then some { seen with inspect := true }
  else if flag = "--foreground" then some { seen with foreground := true }
  else if flag = "--json" then some { seen with json := true }
  else none

/-- The options that name a source. -/
def sourceOf (parseUrl : ParseUrl) (flag : String) :
    Option (Bytes → Except String OpenRequest) :=
  if flag = "--fixture" then some fun value => (textArgument value flag).map .fixture
  else if flag = "--patch" then some fun value => .ok (.patch value)
  else if flag = "--pr" then some fun value => (textArgument value flag).map (.remote .github)
  else if flag = "--git" then some fun value => .ok (.localGit value "" "")
  else if flag = "--staged" then some fun value => .ok (.localIndex value)
  else if flag = "--worktree" then some fun value => .ok (.localWorktree value)
  else if flag = "--resume" then
    some fun value => (textArgument value flag).map fun id => .resume ⟨id⟩
  else if flag = "--mr" then some fun value => (textArgument value flag).map (.remote .gitlab)
  else if flag = "--trail" then some fun value => do
    let address ← textArgument value flag
    let _ ← Entire.TrailAddress.parse parseUrl address
    return .remote .entire address
  else if flag = "--compare" then
    some fun value => textArgument value flag >>= compareRequest parseUrl
  else none

/-- The options that set something else. -/
def Seen.setting (seen : Seen) (flag : String) : Option (Bytes → Except String Seen) :=
  if flag = "--base" then
    some fun value => (textArgument value flag).map fun base => { seen with base }
  else if flag = "--head" then
    some fun value => (textArgument value flag).map fun head => { seen with head }
  else if flag = "--state-dir" then some fun value => .ok { seen with state := some value }
  else if flag = "--font" then
    some fun value => (textArgument value flag).map fun font => { seen with font := some font }
  else if flag = "--theme" then
    some fun value => (textArgument value flag).map fun theme => { seen with theme := some theme }
  else if flag = "--probe" then some fun value => .ok { seen with probe := some value }
  else if flag = "--probe-output" then
    some fun value => .ok { seen with probeOutput := some value }
  else none

def Seen.sourced (seen : Seen) (request : OpenRequest) : Except String Seen := do
  let source ← setSource seen.source request
  return { seen with source }

/-- The options that have a value. -/
def Seen.operand (parseUrl : ParseUrl) (seen : Seen) (flag : String) :
    Option (Bytes → Except String Seen) :=
  match sourceOf parseUrl flag with
  | some read => some fun value => read value >>= seen.sourced
  | none => seen.setting flag

/-- `-`. -/
def dash : UInt8 := 45

/-- The loop of `parse_with_detect`. -/
def parseLoop (parseUrl : ParseUrl) (seen : Seen) : List Bytes → Except String Seen
  | [] => .ok seen
  | arg :: it =>
    let flag := (fromUtf8 arg).getD ""
    match seen.switch flag with
    | some seen => parseLoop parseUrl seen it
    | none =>
      match seen.operand parseUrl flag with
      | some read =>
        match it with
        | [] => .error ("missing value after " ++ flag)
        | value :: it => read value >>= fun seen => parseLoop parseUrl seen it
      | none =>
        if arg.head? = some dash then .error "unknown argument; use --help"
        else Seen.sourced { seen with positional := true } (.patch arg) >>= fun seen =>
          parseLoop parseUrl seen it

/-- `json_source`: the request can be written in the report. -/
def jsonSource (request : Option OpenRequest) : Except String Unit :=
  match request with
  | none => .ok ()
  | some request =>
    if request.toJson.isSome then .ok ()
    else .error "source cannot be represented in JSON; use a UTF-8 path"

/-- The refs of a repository, which are read apart from it. -/
def withRefs (base head : String) : OpenRequest → OpenRequest
  | .localGit root _ _ => .localGit root base head
  | request => request

/-- The source; a positional one is left to `detect`. -/
def named (detect : Bytes → Except String OpenRequest) (seen : Seen) :
    Except String (Option OpenRequest) :=
  match seen.source with
  | some (.patch path) =>
    if seen.positional then (detect path).map some else .ok (some (.patch path))
  | source => .ok source

def parseWithDetect (parseUrl : ParseUrl) (detect : Bytes → Except String OpenRequest)
    (args : List Bytes) : Except String Options := do
  let seen ← parseLoop parseUrl .start args
  let request ← named detect seen
  let request := request.map (withRefs seen.base seen.head)
  if seen.probe.isSome ≠ seen.probeOutput.isSome then
    .error "pass --probe together with --probe-output"
  else do
    if seen.json then jsonSource request
    return { request, state := seen.state, writes := seen.writes,
             gitlabWrites := seen.gitlabWrites, inspect := seen.inspect,
             foreground := seen.foreground, json := seen.json, font := seen.font,
             theme := seen.theme, probe := seen.probe, probeOutput := seen.probeOutput }

/-- A lone argument: a patch if the path is a file, and otherwise the address of a provider. -/
def detect (parseUrl : ParseUrl) (paths : Paths) (path : Bytes) : Except String OpenRequest :=
  if paths.isFile path then (paths.absolute path).map .patch
  else
    match (fromUtf8 path).bind (detectSource parseUrl paths) with
    | some ⟨.remote provider address, _⟩ => .ok (.remote provider address)
    | _ => .error "neither a file nor a review address"

def parse (parseUrl : ParseUrl) (paths : Paths) (args : List Bytes) : Except String Options :=
  parseWithDetect parseUrl (detect parseUrl paths) args

/-! ## Writing them -/

/-- The arguments that name a source. -/
def requestArgs (parseUrl : ParseUrl) : OpenRequest → Except String (List Bytes)
  | .fixture id => .ok [asBytes "--fixture", asBytes id]
  | .patch path => .ok [asBytes "--patch", path]
  | .remote provider address =>
    if provider = .entire then .ok [asBytes "--trail", asBytes address]
    else if (compareRequest parseUrl address).isOk then .ok [asBytes "--compare", asBytes address]
    else if provider = .github then .ok [asBytes "--pr", asBytes address]
    else if provider = .gitlab then .ok [asBytes "--mr", asBytes address]
    else .error ("no command-line flag opens a " ++ provider.val ++ " address")
  | .localGit root base head => .ok [asBytes "--git", root, asBytes "--base", asBytes base,
      asBytes "--head", asBytes head]
  | .localIndex root => .ok [asBytes "--staged", root]
  | .localWorktree root => .ok [asBytes "--worktree", root]
  | .resume id => .ok [asBytes "--resume", asBytes id.val]

def sourceArgs (parseUrl : ParseUrl) : Option OpenRequest → Except String (List Bytes)
  | none => .ok []
  | some request => requestArgs parseUrl request

def fontArgs : Option String → List Bytes
  | none => []
  | some font => [asBytes "--font", asBytes font]

/-- A theme may be a relative path. -/
def themeArgs (paths : Paths) : Option String → Except String (List Bytes)
  | none => .ok []
  | some theme =>
    if paths.present (asBytes theme) then
      (paths.absolute (asBytes theme)).map fun theme => [asBytes "--theme", theme]
    else .ok [asBytes "--theme", asBytes theme]

/-- `launch_args`: the arguments that start a foreground window on a request. -/
def launchArgs (parseUrl : ParseUrl) (paths : Paths) (options : Options) (state : Bytes)
    (request : Option OpenRequest) : Except String (List Bytes) := do
  let state ← paths.absolute state
  let source ← sourceArgs parseUrl request
  let theme ← themeArgs paths options.theme
  return [asBytes "--foreground", asBytes "--state-dir", state] ++ source ++
    (if options.writes then [asBytes "--allow-github-writes"] else []) ++
    (if options.gitlabWrites then [asBytes "--allow-gitlab-writes"] else []) ++
    fontArgs options.font ++ theme

end App
end Diffz
