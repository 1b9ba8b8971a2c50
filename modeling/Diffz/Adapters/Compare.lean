import Diffz.Core.Releases
import Diffz.Core.Snapshot
import Diffz.Lib.Fallible

/-!
# What is read of a compare after it opened (`crates/adapters/src/service.rs`)

The releases in its range, and the blame of some of its files. What the provider answers is an
argument, as is whether the read turned out to be cancelled and whether the store took the result.
-/

set_option autoImplicit false

namespace Diffz
namespace Compare

/-- `Services::releases`. -/
def releases (s : Snapshot) (read : Except String (List Release × List String)) (cancelled : Bool)
    (stored : Except String Unit) : Except String Snapshot :=
  if (s.remote.bind (·.compare)).isNone then .ok s
  else
    let (listed, warnings) :=
      match read with
      | .ok read => read
      | .error e => ([], ["The releases in this range could not be listed: " ++ e])
    -- A step can carry changes the compare leaves out.
    let releases := listed.map fun r =>
      { r with files := r.files.filter fun f =>
          s.patch.files.any fun file => file.displayPath = some f.path }
    let blame := if s.overview.releases = releases then s.overview.blame else .empty
    if cancelled then .error "read cancelled"
    else stored.map fun _ =>
      { s with
        overview := { s.overview with releases, blame }
        warnings := warnings.foldl (fun l w => if w ∈ l then l else l ++ [w]) s.warnings }

/-- The spans whose blame is read. -/
def spans (s : Snapshot) (paths : List String) : List (String × Nat × Nat) :=
  paths.filterMap fun path =>
    (s.patch.files.find? fun f => f.displayPath = some path).bind fun file =>
      (blameSpan s.overview file).map fun span => (path, span)

/-- What the provider says of the spans, one answer for each, with the ranges and their commits. -/
abbrev BlameAnswer := Except String (List (Option (List (Nat × Nat × String))))

/-- `Services::blame`. A read that fails leaves every file unread, and so does one without ranges. -/
def blame (s : Snapshot) (paths : List String) (permit : Except String Unit)
    (provider : List (String × Nat × Nat) → BlameAnswer) (cancelled : Bool) :
    Except String BlameRead :=
  if s.remote.isNone then .error "Release attribution needs a hosted compare"
  else permit >>= fun _ =>
    let spans := spans s paths
    let found :=
      match provider spans with
      | .ok found => found
      | .error _ => List.replicate spans.length none
    if cancelled then .error "Release attribution was cancelled"
    else .ok (.ofList ((spans.zip found).map fun e =>
      (e.1.1, (e.2.filter fun ranges => !ranges.isEmpty).map (attributeRanges s.overview.releases))))

end Compare
end Diffz
