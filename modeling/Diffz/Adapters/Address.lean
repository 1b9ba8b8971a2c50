import Diffz.Core.Domain
import Diffz.Lib.Percent

/-!
# Review addresses (`github.rs`, `gitlab.rs` and `entire.rs` of `crates/adapters/src`)

What a text names: a pull request or a compare on GitHub, a merge request or a compare on GitLab, a
Trail on Entire. Each provider has a grammar of its own, and `reopen_address` writes a target back
as a text of it.

URLs are read by the `url` crate, which is not in this program. It enters as a parameter,
`parseUrl`; a `Url` is what the parsers look at.
-/

set_option autoImplicit false

namespace Diffz

/-- `url::Url`, as far as it is read. -/
structure Url where
  scheme : String
  username : String
  password : Option String
  host : Option String
  port : Option Nat
  path : String
  query : Option String
  queryPairs : List (String × String)
deriving DecidableEq, Repr

/-- `url::Url::parse`, without the reason of a refusal. -/
abbrev ParseUrl := String → Option Url

namespace Url

/-- `path_segments`. -/
def pathSegments (u : Url) : Option (List (List Char)) :=
  (stripPrefix ['/'] u.path.toList).map (·.splitOn '/')

/-- The path without the slashes at its end. -/
def endTrimmed (u : Url) : List Char := u.path.toList.rdropWhile (· = '/')

/-- The path without the slashes at its ends. -/
def trimmed (u : Url) : List Char := (u.path.toList.dropWhile (· = '/')).rdropWhile (· = '/')

/-- Whether the authority is more than a host. -/
def hasAccess (u : Url) : Bool := u.username ≠ "" || u.password.isSome || u.port.isSome

end Url

/-- `starts_with`. -/
def startsWith (s : List Char) (p : String) : Bool := p.toList.isPrefixOf s

/-- `contains`. -/
def hasText (s : List Char) (p : String) : Bool := decide (p.toList <:+: s)

/-- Whether the text has a segment `.` or `..`. -/
def relativeSegment (s : List Char) : Bool := (s.splitOn '/').any fun p => p = ['.'] || p = ['.', '.']

/-- A character of a name: `is_ascii_alphanumeric`, or one of `-_.`. -/
def nameChar (c : Char) : Bool := c.isAlphanum || c ∈ ['-', '_', '.']

/-- The two refs of a range: `...` if there is one, and otherwise `..` for a direct comparison. -/
def splitRange (range : List Char) : Option (List Char × List Char × Bool) :=
  match splitOnce ['.', '.', '.'] range with
  | some (base, head) => some (base, head, false)
  | none => (splitOnce ['.', '.'] range).map fun r => (r.1, r.2, true)

namespace Github

/-- The rules of `git check-ref-format`, and that there is no `:`. -/
def refName (s : List Char) : Bool :=
  s ≠ [] && (asBytes (String.ofList s)).length ≤ 255 &&
    !(s.head?.any (· ∈ ['-', '/', '.'])) && !(s.getLast?.any (· ∈ ['/', '.'])) &&
    !(".lock".toList.isSuffixOf s) && !(hasText s "..") && !(hasText s "//") &&
    !(hasText s "@\x7b") && !(hasText s "/.") &&
    !(s.any fun c => c ≤ ' ' || c = '\x7f' || c ∈ "~^:?*[\\".toList)

/-- `decode_path`. -/
def decodePath (s : List Char) : Except String (List Char) :=
  match Percent.decode (asBytes (String.ofList s)) with
  | none => .error "invalid percent-encoding in the URL"
  | some bytes =>
    match fromUtf8 bytes with
    | none => .error "the URL is not valid UTF-8 once decoded"
    | some text => .ok text.toList

/-- `encode_path`. -/
def encodePath (path : String) : String :=
  String.ofList ((Percent.encode (asBytes path)).map fun b => Char.ofNat b.toNat)

/-! ## GitHub -/

structure PrAddress where
  host : String
  owner : String
  repo : String
  number : Nat
deriving DecidableEq, Repr

def identifier (s : List Char) : Bool :=
  s ≠ [] && s ≠ ['.'] && s ≠ ['.', '.'] && (asBytes (String.ofList s)).length ≤ 100 &&
    s.all nameChar

namespace PrAddress

def checked (host : String) (owner repo n : List Char) : Except String PrAddress :=
  if ¬ identifier owner ∨ ¬ identifier repo ∨ ¬ n.all Char.isDigit then
    .error "bad repository identity, or a bad PR number"
  else match parseU64 n with
    | none => .error "invalid PR number"
    | some number =>
      if number = 0 then .error "PR number must be positive"
      else .ok ⟨host, String.ofList owner, String.ofList repo, number⟩

/-- The URL form. -/
def ofUrl (u : Url) : Except String PrAddress :=
  if u.hasAccess ∨ u.query.isSome then
    .error "credentials, ports, and query strings are not allowed in a PR URL"
  else match u.host with
    | none => .error "PR URL has no host"
    | some host =>
      match (u.endTrimmed.splitOn '/').drop 1 with
      | owner :: repo :: kind :: n :: tab =>
        if tab.length > 1 ∨ kind ≠ "pull".toList ∨
            tab.any fun p => p ≠ "files".toList && p ≠ "commits".toList then
          .error "the URL must look like https://HOST/OWNER/REPO/pull/NUMBER"
        else checked (asciiLower host) owner repo n
      | _ => .error "the URL must look like https://HOST/OWNER/REPO/pull/NUMBER"

/-- The short form. -/
def ofSlug (value : List Char) : Except String PrAddress :=
  match splitOnce ['#'] value with
  | none =>
    .error "pass an owner/repo#number or a full PR URL; a bare number alone is ambiguous"
  | some (slug, n) =>
    match splitOnce ['/'] slug with
    | none => .error "expected owner/repo#number"
    | some (owner, repo) => checked "github.com" owner repo n

def parse (parseUrl : ParseUrl) (value : String) : Except String PrAddress :=
  let value := trim value
  if startsWith value.toList "https://" then
    if relativeSegment value.toList then
      .error "relative URL segments are not accepted as a PR identity"
    else match parseUrl value with
      | none => .error "invalid PR URL"
      | some u => ofUrl u
  else ofSlug value.toList

def fromTarget (t : RemoteTarget) : PrAddress :=
  ⟨t.repository.host, t.repository.owner, t.repository.name, t.pr⟩

def root (a : PrAddress) : String :=
  "repos/" ++ a.owner ++ "/" ++ a.repo ++ "/pulls/" ++ toString a.number

end PrAddress

structure CompareAddress where
  host : String
  owner : String
  repo : String
  refs : CompareRefs
deriving DecidableEq, Repr

namespace CompareAddress

/-- The view toggles GitHub's own compare page appends. -/
def isToggle (pair : String × String) : Bool :=
  pair ∈ [("expand", "1"), ("diff", "split"), ("diff", "unified"), ("w", "1")]

/-- The ref of a side, which may be `owner:ref`; nothing where the owner is none. -/
def sideName (side : List Char) : List Char :=
  match splitOnce [':'] side with
  | none => side
  | some (owner, name) => if identifier owner then name else []

def ofUrl (u : Url) : Except String CompareAddress :=
  if u.scheme ≠ "https" ∨ u.hasAccess ∨ u.queryPairs.any (! isToggle ·) then
    .error "a compare URL must be HTTPS, without credentials, ports, or query strings"
  else match u.host with
    | none => .error "compare URL has no host"
    | some host =>
      match (splitN '/' 5 u.endTrimmed).drop 1 with
      | [owner, repo, kind, range] =>
        if kind ≠ "compare".toList ∨ ¬ identifier owner ∨ ¬ identifier repo then
          .error "the URL must look like https://HOST/OWNER/REPO/compare/BASE...HEAD"
        else do
          let range ← decodePath range
          match splitRange range with
          | none => .error "a compare needs two refs: BASE...HEAD, or BASE..HEAD"
          | some (base, head, direct) =>
            if ¬ refName (sideName base) ∨ ¬ refName (sideName head) then
              .error "the compare names a ref that Git cannot use"
            else return ⟨asciiLower host, String.ofList owner, String.ofList repo,
              ⟨String.ofList base, String.ofList head, direct⟩⟩
      | _ => .error "the URL must look like https://HOST/OWNER/REPO/compare/BASE...HEAD"

def parse (parseUrl : ParseUrl) (value : String) : Except String CompareAddress :=
  let value := trim value
  if relativeSegment value.toList then
    .error "relative URL segments are not accepted as a compare identity"
  else match parseUrl value with
    | none => .error "invalid compare URL"
    | some u => ofUrl u

end CompareAddress

/-- `GithubTarget`. -/
inductive Target
  | pr (a : PrAddress)
  | compare (a : CompareAddress)
deriving DecidableEq, Repr

/-- `GithubTarget::parse`. -/
def Target.parse (parseUrl : ParseUrl) (value : String) : Except String Target :=
  let value := trim value
  let compare := startsWith value.toList "https://" &&
    ((parseUrl value).bind Url.pathSegments).bind (·[2]?) = some "compare".toList
  if compare then (CompareAddress.parse parseUrl value).map .compare
  else (PrAddress.parse parseUrl value).map .pr

/-- `GithubRules::reopen_address`. -/
def reopenAddress (t : RemoteTarget) : String :=
  let r := t.repository
  match t.compare with
  | some c =>
    "https://" ++ r.host ++ "/" ++ r.owner ++ "/" ++ r.name ++ "/compare/" ++ encodePath c.base ++
      (if c.direct then ".." else "...") ++ encodePath c.head
  | none =>
    "https://" ++ r.host ++ "/" ++ r.owner ++ "/" ++ r.name ++ "/pull/" ++ toString t.pr

end Github

/-! ## GitLab -/

namespace Gitlab

open Github (refName decodePath encodePath)

structure MrAddress where
  host : String
  project : String
  number : Nat
deriving DecidableEq, Repr

/-- A project: at least two segments, each a name. -/
def validProject (project : List Char) : Bool :=
  2 ≤ (project.splitOn '/').length &&
    (project.splitOn '/').all fun p =>
      p ≠ [] && p ≠ ['.'] && p ≠ ['.', '.'] && p.all nameChar

namespace MrAddress

def checked (host : String) (project n : List Char) : Except String MrAddress :=
  if ¬ validProject project ∨ ¬ n.all Char.isDigit then
    .error "GitLab project name or merge request number is invalid"
  else match parseU64 n with
    | none => .error "Invalid MR number"
    | some number =>
      if number = 0 then .error "MR number must be positive"
      else .ok ⟨host, String.ofList project, number⟩

/-- The URL form. -/
def ofUrl (u : Url) : Except String MrAddress :=
  if u.hasAccess ∨ u.query.isSome then
    .error "HTTPS MR URLs cannot include credentials, ports, or queries"
  else match splitOnce "/-/merge_requests/".toList u.trimmed with
    | none => .error "Expected /group/project/-/merge_requests/number"
    | some (project, tail) =>
      let parts := tail.splitOn '/'
      if (parts[1]?.any fun p => p ∉ ["diffs".toList, "commits".toList, "pipelines".toList]) ∨
          parts[2]?.isSome then .error "Invalid MR URL suffix"
      else match u.host with
        | none => .error "Missing GitLab host"
        | some host => checked host project (parts.headD [])

/-- The short form. -/
def ofSlug (input : List Char) : Except String MrAddress :=
  match rsplitOnce ['!'] input with
  | none => .error "Enter group/project!123, or provide an HTTPS URL for the GitLab MR"
  | some (project, n) => checked "gitlab.com" project n

def parse (parseUrl : ParseUrl) (input : String) : Except String MrAddress :=
  let input := trim input
  if startsWith input.toList "https://" then
    if relativeSegment input.toList then .error "URL paths may not contain relative segments"
    else match parseUrl input with
      | none => .error "Invalid merge request URL"
      | some u => ofUrl u
  else ofSlug input.toList

/-- The slashes of the project are `%2F`. -/
def root (a : MrAddress) : String :=
  "projects/" ++ String.ofList (a.project.toList.flatMap fun c => if c = '/' then "%2F".toList else [c]) ++
    "/merge_requests/" ++ toString a.number

def fromTarget (t : RemoteTarget) : MrAddress :=
  ⟨t.repository.host, t.repository.owner ++ "/" ++ t.repository.name, t.pr⟩

end MrAddress

/-- `GitlabCompare`. -/
structure CompareAddress where
  host : String
  project : String
  refs : CompareRefs
  fromProjectId : Option Nat
deriving DecidableEq, Repr

namespace CompareAddress

/-- `project_id`: the number of a `from_project_id`. -/
def projectId (value : String) : Except String Nat :=
  match parseU64 value.toList with
  | none => .error "from_project_id must be a number"
  | some n => .ok n

/-- What the query of the path form may say, `from_project_id` and `straight`. -/
def pathQuery : Option Nat → Option Bool → List (String × String) →
    Except String (Option Nat × Option Bool)
  | id, straight, [] => .ok (id, straight)
  | id, straight, (key, value) :: pairs =>
    if key = "from_project_id" then do
      let n ← projectId value
      pathQuery (some n) straight pairs
    else if key = "straight" then pathQuery id (some (value = "true")) pairs
    else .error "Give the refs in the path or in the query, not both"

/-- What the query form has gathered. -/
structure Gathered where
  base : Option String
  head : Option String
  direct : Bool
  fromProjectId : Option Nat

/-- The query form. -/
def refsQuery : Gathered → List (String × String) → Except String Gathered
  | g, [] => .ok g
  | g, (key, value) :: pairs =>
    if key = "from" then refsQuery { g with base := some value } pairs
    else if key = "to" then refsQuery { g with head := some value } pairs
    else if key = "from_project_id" then do
      let n ← projectId value
      refsQuery { g with fromProjectId := some n } pairs
    else if key = "straight" then
      if value = "true" then refsQuery { g with direct := true } pairs
      else if value = "false" then refsQuery { g with direct := false } pairs
      else .error "straight must be true or false"
    else .error "Only from, to, straight, and from_project_id are accepted"

/-- The refs of a URL, with `from_project_id`; `tail` is what follows the separator. -/
def urlRefs (u : Url) (tail : List Char) :
    Except String (List Char × List Char × Bool × Option Nat) :=
  if tail = [] then do
    let g ← refsQuery ⟨none, none, false, none⟩ u.queryPairs
    match g.base, g.head with
    | some base, some head => return (base.toList, head.toList, g.direct, g.fromProjectId)
    | _, _ => .error "The compare query needs from and to"
  else match stripPrefix ['/'] tail with
    | none => .error "Invalid compare URL suffix"
    | some range => do
      let (id, straight) ← pathQuery none none u.queryPairs
      let range ← decodePath range
      match splitRange range with
      | none => .error "A compare needs two refs: from...to, or from..to"
      | some (base, head, direct) =>
        if straight.any (· ≠ direct) then
          .error "straight disagrees with the dots in the compare path"
        else return (base, head, direct, id)

def ofUrl (u : Url) : Except String CompareAddress :=
  if u.scheme ≠ "https" ∨ u.hasAccess then
    .error "HTTPS compare URLs cannot include credentials or ports"
  else match splitOnce "/-/compare".toList u.trimmed with
    | none => .error "Expected /group/project/-/compare/from...to"
    | some (project, tail) => do
      let (base, head, direct, id) ← urlRefs u tail
      if ¬ validProject project then .error "GitLab project name is invalid"
      else if ¬ refName base ∨ ¬ refName head then
        .error "The compare names a ref that Git cannot use"
      else match u.host with
        | none => .error "Missing GitLab host"
        | some host =>
          return ⟨host, String.ofList project, ⟨String.ofList base, String.ofList head, direct⟩, id⟩

def parse (parseUrl : ParseUrl) (input : String) : Except String CompareAddress :=
  let input := trim input
  if relativeSegment input.toList then .error "URL paths may not contain relative segments"
  else match parseUrl input with
    | none => .error "Invalid compare URL"
    | some u => ofUrl u

end CompareAddress

/-- `GitlabTarget`. -/
inductive Target
  | mr (a : MrAddress)
  | compare (a : CompareAddress)
deriving DecidableEq, Repr

/-- Whether the path of a URL is that of a compare. -/
def isCompare (u : Url) : Bool :=
  "/-/compare".toList.isSuffixOf u.endTrimmed || hasText u.endTrimmed "/-/compare/"

/-- `GitlabTarget::parse`. -/
def Target.parse (parseUrl : ParseUrl) (input : String) : Except String Target :=
  let input := trim input
  if startsWith input.toList "https://" && (parseUrl input).any isCompare then
    (CompareAddress.parse parseUrl input).map .compare
  else (MrAddress.parse parseUrl input).map .mr

/-- `GitlabRules::reopen_address`. -/
def reopenAddress (t : RemoteTarget) : String :=
  let r := t.repository
  match t.compare with
  | some c =>
    "https://" ++ r.host ++ "/" ++ r.owner ++ "/" ++ r.name ++ "/-/compare/" ++
      encodePath c.base ++ (if c.direct then ".." else "...") ++ encodePath c.head
  | none =>
    "https://" ++ r.host ++ "/" ++ r.owner ++ "/" ++ r.name ++ "/-/merge_requests/" ++
      toString t.pr

end Gitlab

/-! ## Entire -/

namespace Entire

inductive TrailSelection
  | project (number : Nat) (change : Option (String × Nat))
  | repository (repo : String) (number : Nat)
deriving DecidableEq, Repr

structure TrailAddress where
  host : String
  forge : String
  project : String
  selection : TrailSelection
deriving DecidableEq, Repr

def projectName (s : List Char) : Bool :=
  s ≠ [] && (asBytes (String.ofList s)).length ≤ 39 && s.head?.any Char.isAlphanum &&
    s.getLast?.any Char.isAlphanum && s.all fun c => c.isAlphanum || c = '-'

def repoName (s : List Char) : Bool :=
  s ≠ [] && (asBytes (String.ofList s)).length ≤ 100 && s ∉ [['.'], ['.', '.'], ['-']] &&
    s.all nameChar

def trailNumber (s : List Char) : Except String Nat :=
  if s = [] ∨ (asBytes (String.ofList s)).length > 10 ∨ ¬ s.all Char.isDigit then
    .error "Entire Trail and Change numbers must be positive integers"
  else match parseU64 s with
    | none => .error "invalid Entire number"
    | some n =>
      if n = 0 then .error "Entire Trail and Change numbers must be positive integers" else .ok n

/-- `strict_https_url`: the text is looked at before it is parsed, which would drop a segment `..` or
a port that is the default one. -/
def strictHttpsUrl (parseUrl : ParseUrl) (raw : String) : Except String Url :=
  let text := raw.toList
  if ¬ startsWith text "https://" ∨ (text.any fun c => c < ' ' || c = '\x7f' || c = '\\') ∨
      relativeSegment text then
    .error "Entire URLs must be absolute HTTPS URLs without relative segments"
  else
    let authority := (text.drop 8).takeWhile (· ∉ ['/', '?', '#'])
    if authority = [] ∨ authority.any (· ∈ ['@', ':']) then
      .error "credentials and ports are not allowed in Entire URLs"
    else if '%' ∈ (text.drop (8 + authority.length)).takeWhile (· ∉ ['?', '#']) then
      .error "encoded Entire URL identities are not accepted"
    else match parseUrl raw with
      | none => .error "invalid Entire URL"
      | some u =>
        if ¬ (u.host.any fun host => asciiLower (String.ofList authority) = asciiLower host) ∨
            u.hasAccess ∨ '%' ∈ u.path.toList then .error "invalid or encoded Entire URL identity"
        else .ok u

def TrailSelection.parse : List (List Char) → Except String TrailSelection
  | p2 :: p3 :: p4 :: rest =>
    if p2 = ['-'] ∧ p3 = "trails".toList then do
      let number ← trailNumber p4
      match rest with
      | [] => return .project number none
      | [p5, p6, p7] =>
        if p5 = "changes".toList ∧ repoName p6 then do
          let change ← trailNumber p7
          return .project number (some (String.ofList p6, change))
        else .error "expected /-/trails/NUMBER or /-/trails/NUMBER/changes/REPO/NUMBER"
      | _ => .error "expected /-/trails/NUMBER or /-/trails/NUMBER/changes/REPO/NUMBER"
    else if rest.length ≤ 1 ∧ repoName p2 ∧ p3 = "trails".toList ∧ rest.all repoName then do
      let number ← trailNumber p4
      return .repository (String.ofList p2) number
    else .error "expected an Entire project Trail or repository Change URL"
  | _ => .error "expected an Entire URL with et/<project> or gh/<owner>"

def TrailAddress.parse (parseUrl : ParseUrl) (value : String) : Except String TrailAddress := do
  let u ← strictHttpsUrl parseUrl (trim value)
  match u.host with
  | none => .error "Entire URL has no host"
  | some host =>
    if host ∉ ["entire.com", "entire.io"] then
      .error "Entire Trail URLs must use entire.com or entire.io"
    else if u.query.isSome then
      .error "query strings are not allowed in an Entire Trail identity"
    else match (u.endTrimmed.splitOn '/').drop 1 with
      | forge :: project :: rest =>
        if rest.length < 3 ∨ forge ∉ ["et".toList, "gh".toList] ∨ ¬ projectName project then
          .error "expected an Entire URL with et/<project> or gh/<owner>"
        else do
          let selection ← TrailSelection.parse rest
          return ⟨host, String.ofList forge, asciiLower (String.ofList project), selection⟩
      | _ => .error "expected an Entire URL with et/<project> or gh/<owner>"

end Entire
end Diffz
