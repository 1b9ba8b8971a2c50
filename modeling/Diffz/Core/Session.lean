import Diffz.Core.Snapshot

/-!
# Edits and acknowledgements (`crates/core/src/session.rs`)

A draft of a session counts its edits in `version`; `savedVersion` is the last version the store is
known to have. Both functions are used by the reducer and by the native input adapter.
-/

set_option autoImplicit false

namespace Diffz
namespace Session

def u64Max : Nat := 18446744073709551615

/-- `edit_draft`; the flag says whether the draft changed. -/
def editDraft (d : Draft) (body : String) : Except String (Bool × Draft) :=
  if d.published ∨ d.body = body then .ok (false, d)
  else if d.version = u64Max then .error "draft revision overflow"
  else .ok (true, { d with body, version := d.version + 1 })

def acknowledgeSave (d : Draft) (version : Nat) : Draft :=
  if version ≤ d.version then { d with savedVersion := max d.savedVersion version } else d

end Session
end Diffz
