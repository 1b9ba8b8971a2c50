import Diffz.Lib.Text

/-!
# The claims of a login (`decode_base64url` of `crates/adapters/src/entire.rs`)

The claims of an Entire login are in base64url. The loop keeps the bits it has not put out yet in a
`u32`, which is shifted without a check.
-/

set_option autoImplicit false

namespace Diffz
namespace Entire

def invalidClaims : String := "Entire login has invalid encoded claims"

/-- The digit a byte stands for. -/
def base64Digit (byte : UInt8) : Option UInt8 :=
  if 65 ≤ byte ∧ byte ≤ 90 then some (byte - 65)
  else if 97 ≤ byte ∧ byte ≤ 122 then some (byte - 97 + 26)
  else if 48 ≤ byte ∧ byte ≤ 57 then some (byte - 48 + 52)
  else if byte = 45 then some 62
  else if byte = 95 then some 63
  else none

/-- The variables of the loop. -/
structure Accumulator where
  out : Bytes
  value : UInt32
  bits : Nat

def Accumulator.empty : Accumulator := ⟨[], 0, 0⟩

/-- One turn of the loop. -/
def feed (acc : Accumulator) (byte : UInt8) : Except String Accumulator :=
  match base64Digit byte with
  | none => .error invalidClaims
  | some digit =>
    let value := (acc.value <<< 6) ||| digit.toUInt32
    let bits := acc.bits + 6
    if bits ≥ 8 then
      let bits := bits - 8
      .ok { out := acc.out ++ [(value >>> UInt32.ofNat bits).toUInt8]
            value := value &&& ((1 <<< UInt32.ofNat bits) - 1), bits }
    else .ok { acc with value, bits }

def decodeBase64url (s : String) : Except String Bytes := do
  let acc ← (asBytes s).foldlM feed .empty
  if acc.bits = 6 ∨ acc.value ≠ 0 then .error invalidClaims else .ok acc.out

end Entire
end Diffz
