import Diffz.Adapters.Address
import Diffz.Adapters.Handoff

/-!
# What a text names (`detect_source` of `crates/adapters/src/service.rs`)

The file system is not in this program. `Paths` is what is asked of it.
-/

set_option autoImplicit false

namespace Diffz

open Handoff (OpenRequest)

/-- The answers of the file system for a path, and its `std::path::absolute`. -/
structure Paths where
  isFile : Bytes → Bool
  present : Bytes → Bool
  absolute : Bytes → Except String Bytes

/-- A source recognized in a text. -/
structure Detected where
  request : OpenRequest
  label : String
deriving DecidableEq, Repr

def maxDetected : Nat := 4096

/-- `public_host`. -/
def publicHost (provider : ProviderId) (host : String) : Bool :=
  if provider = .github then asciiLower host = "github.com"
  else if provider = .gitlab then asciiLower host = "gitlab.com"
  else if provider = .entire then asciiLower host = "entire.com" || asciiLower host = "entire.io"
  else false

/-- The provider of a URL that is not one of Entire. -/
def detectProvider (parseUrl : ParseUrl) (input : String) : Option (ProviderId × String) :=
  match Github.Target.parse parseUrl input, Gitlab.Target.parse parseUrl input with
  | .ok (.pr _), _ => some (.github, "GitHub pull request")
  | .ok (.compare _), _ => some (.github, "GitHub compare")
  | _, .ok (.mr _) => some (.gitlab, "GitLab merge request")
  | _, .ok (.compare _) => some (.gitlab, "GitLab compare")
  | _, _ => none

/-- `detect_source`. A URL of Entire is not left to the parsers of the others, which take any host. -/
def detectSource (parseUrl : ParseUrl) (paths : Paths) (input : String) : Option Detected :=
  let input := trim input
  if input = "" ∨ (asBytes input).length > maxDetected ∨ '\n' ∈ input.toList then none
  else if paths.isFile (asBytes input) then
    some ⟨.patch ((paths.absolute (asBytes input)).toOption.getD (asBytes input)), "Patch file"⟩
  else if (parseUrl input).any fun u => u.host.any (publicHost .entire) then
    match Entire.TrailAddress.parse parseUrl input with
    | .error _ => none
    | .ok _ => some ⟨.remote .entire input, "Entire Trail"⟩
  else (detectProvider parseUrl input).map fun found => ⟨.remote found.1 input, found.2⟩

end Diffz
